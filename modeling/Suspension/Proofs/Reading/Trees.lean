import Suspension.Proofs.Reading.Values
import Suspension.Proofs.Unnumbered
import Suspension.Tree.Reader

/-!
# Written trees are read back

* `Node.read_write` - the text of a tree is read back as a tree that agrees with it in every field
  at every node, the numbers of nodes apart, if its arrays and objects nest no deeper than the
  reader follows them.

The format is data: records are lists of fields, a field holds one or none or a list of a base. So
the proof follows that data and not the nineteen forms. `rowOfMembers_cons` says that a record whose
members stand in the order of its fields is read field by field, and `Base.ReadsBack.content` takes
what is known of a base to the fields that hold it. Of single forms all that is used is that the
names of their fields differ from each other and from the name for the form.
-/

namespace Suspension

namespace Format

variable {α β γ δ : Type}

/-! ### Contents with other trees in them -/

/-- What a base holds, each tree replaced. -/
def Base.map (f : α → β) : (b : Base) → b.Carrier α → b.Carrier β
  | .node => f
  | .clause => Clause.map f
  | .case => Case.map f
  | .var => id
  | .label => id
  | .ty => id
  | .binaryOp => id
  | .unaryOp => id
  | .step => id
  | .literal => id
  | .text => id
  | .symbol => id
  | .int => id

/-- What a field holds, each tree replaced. -/
def Content.map (f : α → β) : (c : Content) → c.Carrier α → c.Carrier β
  | .one b => b.map f
  | .option b => Option.map (b.map f)
  | .list b => List.map (b.map f)

/-- A record, each tree replaced. -/
def Row.map (f : α → β) : (fs : List Field) → Row α fs → Row β fs
  | [], () => ()
  | field :: fs, (x, row) => (field.content.map f x, Row.map f fs row)

/-- The trees that a base holds. -/
def Base.trees : (b : Base) → b.Carrier α → List α
  | .node, (n : α) => [n]
  | .clause, c => Clause.children c
  | .case, c => [Case.body c]
  | _, _ => []

/-- The trees that a field holds. -/
def Content.trees : (c : Content) → c.Carrier α → List α
  | .one b, x => b.trees x
  | .option b, x => (Option.toList x).flatMap b.trees
  | .list b, xs => List.flatMap b.trees xs

/-- The trees that a record holds. -/
def Row.trees : (fs : List Field) → Row α fs → List α
  | [], () => []
  | field :: fs, (x, row) => field.content.trees x ++ Row.trees fs row

/-! The bases whose fields may be absent or repeated, one by one: `Content.map` and `Content.trees`
are told apart by the base only. -/

@[simp] theorem Content.map_option_text (f : α → β) (o : Option String) :
    Content.map f (.option .text) o = o := by
  cases o <;> rfl

@[simp] theorem Content.map_option_label (f : α → β) (o : Option Label) :
    Content.map f (.option .label) o = o := by
  cases o <;> rfl

@[simp] theorem Content.map_option_var (f : α → β) (o : Option Variable) :
    Content.map f (.option .var) o = o := by
  cases o <;> rfl

@[simp] theorem Content.map_list_var (f : α → β) (vs : List Variable) :
    Content.map f (.list .var) vs = vs :=
  List.map_id vs

@[simp] theorem Content.map_list_int (f : α → β) (ns : List Int64) :
    Content.map f (.list .int) ns = ns :=
  List.map_id ns

@[simp] theorem Content.trees_option_text (o : Option String) :
    Content.trees (α := α) (.option .text) o = [] := by
  cases o <;> rfl

@[simp] theorem Content.trees_option_label (o : Option Label) :
    Content.trees (α := α) (.option .label) o = [] := by
  cases o <;> rfl

@[simp] theorem Content.trees_list_var (vs : List Variable) :
    Content.trees (α := α) (.list .var) vs = [] :=
  List.flatMap_eq_nil_iff.2 fun _ _ ↦ rfl

@[simp] theorem Content.trees_option_node (o : Option α) :
    Content.trees (.option .node) o = o.toList := by
  cases o <;> rfl

@[simp] theorem Content.trees_list_node (ns : List α) : Content.trees (.list .node) ns = ns :=
  List.flatMap_singleton' ns

@[simp] theorem Content.trees_list_case (cs : List (Case α)) :
    Content.trees (.list .case) cs = cs.map Case.body :=
  (List.map_eq_flatMap ..).symm

/-- The row of a clause is mapped like the clause. -/
theorem Row.map_clauseRow (f : α → β) (c : Clause α) :
    Row.map f clauseFields (clauseRow c) = clauseRow (c.map f) :=
  congrArg (fun binder ↦ clauseRow ⟨binder, c.filter.map f, f c.body⟩)
    (Content.map_option_var f c.binder)

/-- A clause is made of a row alike before and after mapping. -/
theorem clauseOfRow_map (f : α → β) (row : Row α clauseFields) :
    clauseOfRow (Row.map f clauseFields row) = (clauseOfRow row).map f := by
  obtain ⟨binder, filter, body, ⟨⟩⟩ := row
  exact congrArg (Clause.mk · (Option.map f filter) (f body)) (Content.map_option_var f binder)

/-- The row of a case is mapped like the case. -/
theorem Row.map_caseRow (f : α → β) (c : Case α) :
    Row.map f caseFields (caseRow c) = caseRow (c.map f) :=
  congrArg (fun tests ↦ caseRow ⟨tests, f c.body⟩) (Content.map_list_int f c.tests)

/-- A case is made of a row alike before and after mapping. -/
theorem caseOfRow_map (f : α → β) (row : Row α caseFields) :
    caseOfRow (Row.map f caseFields row) = (caseOfRow row).map f := by
  obtain ⟨tests, body, ⟨⟩⟩ := row
  exact congrArg (Case.mk · (f body)) (Content.map_list_int f tests)

end Format

open Format

namespace Shape

variable {α β : Type}

/-- The trees in the row of a layer are its children. -/
theorem trees_row (s : Shape α) : Row.trees s.kind.fields s.row = s.children := by
  cases s <;> simp [row, kind, Kind.fields, Row.trees, children]
  all_goals rfl

/-- Replacing the children of a layer replaces them in its record. -/
theorem rowMembers_map (f : α → Json) (s : Shape α) :
    rowMembers (s.map f).kind.fields (s.map f).row =
      rowMembers s.kind.fields (Row.map f s.kind.fields s.row) := by
  cases s with
  | block declared ns =>
    show rowMembers Kind.block.fields (declared, ns.map f, ()) =
      rowMembers Kind.block.fields (Content.map f (.list .var) declared, ns.map f, ())
    rw [Content.map_list_var]
  | await operand acquire result =>
    show rowMembers Kind.await.fields (f operand, acquire, result, ()) =
      rowMembers Kind.await.fields (f operand, Content.map f (.option .text) acquire, result, ())
    rw [Content.map_option_text]
  | loop body breakLabel continueLabel =>
    show rowMembers Kind.loop.fields (f body, breakLabel, continueLabel, ()) =
      rowMembers Kind.loop.fields (f body, Content.map f (.option .label) breakLabel,
        Content.map f (.option .label) continueLabel, ())
    rw [Content.map_option_label, Content.map_option_label]
  | _ => rfl

/-- A layer is made of a row alike before and after mapping. -/
theorem ofRow_map (f : α → β) (k : Kind) (row : Row α k.fields) :
    ofRow k (Row.map f k.fields row) = (ofRow k row).map f := by
  cases k with
  | block =>
    obtain ⟨declared, ns, ⟨⟩⟩ := row
    exact congrArg (Shape.block · (List.map f ns)) (Content.map_list_var f declared)
  | await =>
    obtain ⟨operand, acquire, result, ⟨⟩⟩ := row
    exact congrArg (Shape.await (f operand) · result) (Content.map_option_text f acquire)
  | loop =>
    obtain ⟨body, breakLabel, continueLabel, ⟨⟩⟩ := row
    exact congrArg₂ (Shape.loop (f body)) (Content.map_option_label f breakLabel)
      (Content.map_option_label f continueLabel)
  | _ => rfl

end Shape

namespace Format

variable {γ δ ε ζ : Type}

/-! ### Readings that succeed -/

/-- Whether a reading succeeds, whatever has been numbered so far, with a result that `f` takes to
`y`. -/
def Gives (read : Read γ) (f : γ → δ) (y : δ) : Prop :=
  ∀ supply, ∃ x supply', read supply = some (x, supply') ∧ f x = y

/-- A value gives what is made of it. -/
theorem Gives.pure {f : γ → δ} (x : γ) : Gives (pure x) f (f x) :=
  fun supply ↦ ⟨x, supply, rfl, rfl⟩

/-- What is read step by step gives what is made of it step by step. -/
theorem Gives.bind {read : Read γ} {f : γ → δ} {y : δ} {next : γ → Read ε} {g : ε → ζ} {z : ζ}
    (first : Gives read f y) (rest : ∀ x, f x = y → Gives (next x) g z) :
    Gives (read >>= next) g z := by
  intro supply
  obtain ⟨x, supply₁, run, agrees⟩ := first supply
  obtain ⟨x', supply₂, run', agrees'⟩ := rest x agrees supply₁
  refine ⟨x', supply₂, ?_, agrees'⟩
  show (read supply).bind (fun p ↦ next p.1 p.2) = _
  rw [run]
  exact run'

/-- What is made of a reading gives what is made of its value. -/
theorem Gives.map {read : Read γ} {f : γ → δ} {y : δ} {h : γ → ε} {g : ε → ζ} {z : ζ}
    (first : Gives read f y) (rest : ∀ x, f x = y → g (h x) = z) : Gives (h <$> read) g z := by
  rw [map_eq_pure_bind]
  exact first.bind fun x agrees ↦ rest x agrees ▸ .pure _

/-- A value that is there gives what is made of it. -/
theorem Gives.ofSome {o : Option γ} {x : γ} {f : γ → δ} (h : o = some x) :
    Gives (o : Read γ) f (f x) := by
  subst h
  exact fun supply ↦ ⟨x, supply, rfl, rfl⟩

/-! ### Records, field by field -/

/-- A slot before others. -/
def Slots.cons {f : Field} {fs : List Field} (slot : Option (f.content.Carrier Node))
    (slots : Slots Node fs) : Slots Node (f :: fs) :=
  (slot, slots)

/-- Members under other names leave a slot as it is. -/
theorem foldlM_fill_cons {f : Field} {fs : List Field} {ms : List (String × Reading)}
    (other : ∀ m ∈ ms, m.1 ≠ f.name) (slot : Option (f.content.Carrier Node))
    (slots : Slots Node fs) :
    ms.foldlM (fun slots m ↦ Slots.fill m.1 m.2.content (f :: fs) slots) (Slots.cons slot slots) =
      Slots.cons slot <$>
        ms.foldlM (fun slots m ↦ Slots.fill m.1 m.2.content fs slots) slots := by
  induction ms generalizing slots with
  | nil => rfl
  | cons m ms ih =>
    have skip : f.name ≠ m.1 := (other m List.mem_cons_self).symm
    have step : Slots.fill m.1 m.2.content (f :: fs) (Slots.cons slot slots) =
        Slots.cons slot <$> Slots.fill m.1 m.2.content fs slots := by
      rw [map_eq_pure_bind]
      exact if_neg skip
    simp only [List.foldlM_cons, step, bind_map_left, map_bind,
      ih fun m' member ↦ other m' (List.mem_cons_of_mem _ member)]

/-- A record whose members stand in the order of its fields is read field by field. -/
theorem rowOfMembers_cons {f : Field} {fs : List Field} {r : Reading}
    {ms : List (String × Reading)} (other : ∀ m ∈ ms, m.1 ≠ f.name) :
    rowOfMembers (f :: fs) ((f.name, r) :: ms) = do
      let x ← r.content f.content
      let row ← rowOfMembers fs ms
      return (x, row) := by
  have first : Slots.fill f.name r.content (f :: fs) (Slots.empty Node (f :: fs)) =
      (fun x ↦ Slots.cons (some x) (Slots.empty Node fs)) <$> r.content f.content := by
    rw [map_eq_pure_bind]
    exact if_pos rfl
  have close (x : f.content.Carrier Node) (slots : Slots Node fs) :
      (Slots.close? (f :: fs) (Slots.cons (some x) slots) : Read (Row Node (f :: fs))) = do
        let row ← (slots.close? fs : Read (Row Node fs))
        return (x, row) := by
    have here : Slots.close? (f :: fs) (Slots.cons (some x) slots) =
        (slots.close? fs).bind fun row ↦ some (x, row) := rfl
    rw [here]
    cases slots.close? fs <;> rfl
  simp only [rowOfMembers, List.foldlM_cons, first, bind_map_left, bind_assoc,
    foldlM_fill_cons other, close]
  rfl

/-! ### What reads back -/

/-- A reading keeps the value it was made of. -/
theorem json_fold_reading (j : Json) : (j.fold reading).json = j := by
  cases j <;> rfl

/-- The members of a row have the names of its fields. -/
theorem map_fst_rowMembers (fs : List Field) (row : Row Json fs) :
    (rowMembers fs row).map Prod.fst = fs.map Field.name := by
  induction fs with
  | nil => rfl
  | cons f fs ih =>
    obtain ⟨x, row⟩ := row
    exact congrArg (f.name :: ·) (ih row)

/-- Whether the written form of what a base holds is read back up to the numbers of nodes. -/
def Base.ReadsBack (b : Base) (x : b.Carrier Node) : Prop :=
  Gives (((b.json (b.map Node.toJson x)).fold reading).one b) (b.map Node.unnumbered)
    (b.map Node.unnumbered x)

/-- Whether the written form of what a field holds is read back up to the numbers of nodes. -/
def Content.ReadsBack (c : Content) (x : c.Carrier Node) : Prop :=
  Gives (((c.json (c.map Node.toJson x)).fold reading).content c) (c.map Node.unnumbered)
    (c.map Node.unnumbered x)

/-- The written form of a record, each member ready to be read as part of a tree. -/
def readings (fs : List Field) (row : Row Node fs) : List (String × Reading) :=
  (rowMembers fs (Row.map Node.toJson fs row)).map fun m ↦ (m.1, m.2.fold reading)

/-- Whether the written form of a record is read back up to the numbers of nodes. -/
def Row.ReadsBack (fs : List Field) (row : Row Node fs) : Prop :=
  Gives (rowOfMembers fs (readings fs row)) (Row.map Node.unnumbered fs)
    (Row.map Node.unnumbered fs row)

/-- Every member that is read has the name of a field. -/
theorem fst_mem_of_mem_readings {fs : List Field} {row : Row Node fs} {m : String × Reading}
    (member : m ∈ readings fs row) : m.1 ∈ fs.map Field.name := by
  rw [← map_fst_rowMembers fs (Row.map Node.toJson fs row)]
  obtain ⟨m', written, rfl⟩ := List.mem_map.1 member
  exact List.mem_map_of_mem written

/-- A row is read back field by field. -/
theorem Row.readsBack_cons {f : Field} {fs : List Field} {x : f.content.Carrier Node}
    {row : Row Node fs} (other : f.name ∉ fs.map Field.name)
    (first : Content.ReadsBack f.content x) (rest : Row.ReadsBack fs row) :
    Row.ReadsBack (f :: fs) (x, row) := by
  have split : readings (f :: fs) (x, row) =
    (f.name, (f.content.json (f.content.map Node.toJson x)).fold reading) :: readings fs row := rfl
  unfold Row.ReadsBack
  rw [split, rowOfMembers_cons fun m member same ↦ other (same ▸ fst_mem_of_mem_readings member)]
  refine first.bind fun x' agrees ↦ rest.bind fun row' agrees' ↦ ?_
  have both : Row.map Node.unnumbered (f :: fs) (x', row') =
      Row.map Node.unnumbered (f :: fs) (x, row) := Prod.ext agrees agrees'
  exact both ▸ .pure _

/-- A tree is written layer by layer. -/
theorem toJson_eq (n : Node) : n.toJson = (n.shape.map Node.toJson).json :=
  Node.fold_eq _ n

/-- Nothing that a field may hold is written like its absence. -/
theorem Base.json_ne_null (b : Base) (x : b.Carrier Node) :
    b.json (b.map Node.toJson x) ≠ .null := by
  cases b with
  | node =>
    have node (n : Node) : n.toJson ≠ .null := by
      rw [toJson_eq]
      nofun
    exact node x
  | literal => cases x <;> nofun
  | _ => nofun

/-- Content that may be absent is read where it is present. -/
theorem content_option {r : Reading} (present : r.json ≠ .null) (b : Base) :
    r.content (.option b) = some <$> r.one b := by
  obtain ⟨json, one, list⟩ := r
  rw [map_eq_pure_bind]
  cases json with
  | null => exact absurd rfl present
  | _ => rfl

/-- Content that may be absent is read back if what is there is. -/
theorem Content.readsBack_option {b : Base} {o : Option (b.Carrier Node)}
    (h : ∀ x ∈ o, b.ReadsBack x) : Content.ReadsBack (.option b) o := by
  cases o with
  | none => exact .pure none
  | some x =>
    have present : ((b.json (b.map Node.toJson x)).fold reading).json ≠ .null := by
      rw [json_fold_reading]
      exact b.json_ne_null x
    show Gives (((b.json (b.map Node.toJson x)).fold reading).content (.option b)) _ _
    rw [content_option present]
    exact (h x rfl).map fun x' agrees ↦ congrArg some agrees

/-- A list is read back if its members are. -/
theorem Content.readsBack_list {b : Base} {xs : List (b.Carrier Node)}
    (h : ∀ x ∈ xs, b.ReadsBack x) : Content.ReadsBack (.list b) xs := by
  have items : ((Content.json (.list b) (Content.map Node.toJson (.list b) xs)).fold
      reading).content (.list b) =
        xs.mapM fun x ↦ ((b.json (b.map Node.toJson x)).fold reading).one b := by
    show (Json.foldItems reading _).mapM _ = _
    rw [Json.foldItems_eq]
    show (((xs.map (b.map Node.toJson)).map b.json).map (Json.fold reading)).mapM _ = _
    simp only [List.map_map, List.mapM_map]
    rfl
  unfold Content.ReadsBack
  rw [items]
  clear items
  induction xs with
  | nil => exact .pure (f := Content.map Node.unnumbered (.list b)) []
  | cons x xs ih =>
    rw [List.mapM_cons]
    refine (h x List.mem_cons_self).bind fun x' agrees ↦
      (ih fun y member ↦ h y (List.mem_cons_of_mem _ member)).bind fun xs' agrees' ↦ ?_
    have both : Content.map Node.unnumbered (.list b) (x' :: xs') =
      Content.map Node.unnumbered (.list b) (x :: xs) := congrArg₂ List.cons agrees agrees'
    exact both ▸ .pure _

/-! ### The bases -/

/-- Types are read back. -/
theorem readsBack_ty (t : Ty) : Base.ReadsBack .ty t :=
  .ofSome (by cases t <;> rfl)

/-- Operators with two operands are read back. -/
theorem readsBack_binaryOp (op : BinaryOp) : Base.ReadsBack .binaryOp op :=
  .ofSome (by cases op <;> rfl)

/-- Operators with one operand are read back. -/
theorem readsBack_unaryOp (op : UnaryOp) : Base.ReadsBack .unaryOp op :=
  .ofSome (by cases op <;> rfl)

/-- Steps of the awaiter protocol are read back. -/
theorem readsBack_step (s : AwaitStep) : Base.ReadsBack .step s :=
  .ofSome (by cases s <;> rfl)

theorem readsBack_text (s : String) : Base.ReadsBack .text s :=
  .ofSome rfl

/-- The numbers of the language are in the range that is read. -/
theorem int?_toInt (n : Int64) : int? (.int n.toInt) = some n := by
  rw [int?, if_pos ⟨n.minValue_le_toInt, n.toInt_le⟩, Int64.ofInt_toInt]

theorem readsBack_int (n : Int64) : Base.ReadsBack .int n :=
  .ofSome (int?_toInt n)

/-- Symbols are read back, whatever their number. -/
theorem readsBack_symbol (n : SymbolId) : Base.ReadsBack .symbol n :=
  .ofSome (by
    show symbol? (.int n.toNat) = some n
    rw [symbol?, if_pos ⟨Int.natCast_nonneg _, Int.ofNat_lt.2 n.toNat_lt⟩, Int.toNat_natCast,
      UInt64.ofNat_toNat])

/-- Constants are read back. -/
theorem readsBack_literal (v : Literal) : Base.ReadsBack .literal v := by
  cases v with
  | null => exact .ofSome rfl
  | unit => exact .ofSome rfl
  | bool b => exact .ofSome (rfl : literal? (literalJson (.bool b)) = some (.bool b))
  | int n =>
    have number : literal? (literalJson (.int n)) = some (.int n) :=
      congrArg (Option.map Literal.int) (int?_toInt n)
    exact .ofSome number
  | str s => exact .ofSome (rfl : literal? (literalJson (.str s)) = some (.str s))

/-! ### Records of the format -/

theorem Row.readsBack_nil : Row.ReadsBack [] () :=
  .pure ()

/-- Variables are read back. -/
theorem readsBack_var (v : Variable) : Base.ReadsBack .var v := by
  have row : Row.ReadsBack variableFields (variableRow v) :=
    Row.readsBack_cons (by decide) (readsBack_symbol v.id) <|
      Row.readsBack_cons (by decide) (readsBack_text v.name) <|
        Row.readsBack_cons (by decide) (readsBack_ty v.ty) Row.readsBack_nil
  exact row.map fun row' agrees ↦ congrArg variableOfRow agrees

/-- Labels are read back. -/
theorem readsBack_label (l : Label) : Base.ReadsBack .label l := by
  have row : Row.ReadsBack labelFields (labelRow l) :=
    Row.readsBack_cons (by decide) (readsBack_symbol l.id) <|
      Row.readsBack_cons (by decide) (readsBack_text l.name) Row.readsBack_nil
  exact row.map fun row' agrees ↦ congrArg labelOfRow agrees

/-- A clause is read back if its filter and its body are. -/
theorem readsBack_clause {c : Clause Node} (filter : ∀ n ∈ c.filter, Base.ReadsBack .node n)
    (body : Base.ReadsBack .node c.body) : Base.ReadsBack .clause c := by
  have row : Row.ReadsBack clauseFields (clauseRow c) :=
    Row.readsBack_cons (by decide) (Content.readsBack_option fun v _ ↦ readsBack_var v) <|
      Row.readsBack_cons (by decide) (Content.readsBack_option filter) <|
        Row.readsBack_cons (by decide) body Row.readsBack_nil
  have read : ((Base.json .clause (Base.map Node.toJson .clause c)).fold reading).one .clause =
      clauseOfRow <$> rowOfMembers clauseFields (readings clauseFields (clauseRow c)) := by
    rw [readings, Row.map_clauseRow]
    rfl
  unfold Base.ReadsBack
  rw [read]
  refine row.map fun row' agrees ↦ ?_
  calc
    (clauseOfRow row').map Node.unnumbered
      = clauseOfRow (Row.map Node.unnumbered clauseFields row') := (clauseOfRow_map ..).symm
    _ = clauseOfRow (Row.map Node.unnumbered clauseFields (clauseRow c)) := by rw [agrees]
    _ = c.map Node.unnumbered := clauseOfRow_map ..

/-- A case is read back if its body is. -/
theorem readsBack_case {c : Case Node} (body : Base.ReadsBack .node c.body) :
    Base.ReadsBack .case c := by
  have row : Row.ReadsBack caseFields (caseRow c) :=
    Row.readsBack_cons (by decide) (Content.readsBack_list fun n _ ↦ readsBack_int n) <|
      Row.readsBack_cons (by decide) body Row.readsBack_nil
  have read : ((Base.json .case (Base.map Node.toJson .case c)).fold reading).one .case =
      caseOfRow <$> rowOfMembers caseFields (readings caseFields (caseRow c)) := by
    rw [readings, Row.map_caseRow]
    rfl
  unfold Base.ReadsBack
  rw [read]
  refine row.map fun row' agrees ↦ ?_
  calc
    (caseOfRow row').map Node.unnumbered
      = caseOfRow (Row.map Node.unnumbered caseFields row') := (caseOfRow_map ..).symm
    _ = caseOfRow (Row.map Node.unnumbered caseFields (caseRow c)) := by rw [agrees]
    _ = c.map Node.unnumbered := caseOfRow_map ..

/-- A base reads back if the trees in it do. -/
theorem Base.readsBack {b : Base} {x : b.Carrier Node}
    (trees : ∀ n ∈ b.trees x, Base.ReadsBack .node n) : b.ReadsBack x := by
  cases b with
  | node => exact trees x (List.mem_singleton_self x)
  | clause =>
    have below : ∀ n ∈ Clause.children x, Base.ReadsBack .node n := trees
    refine readsBack_clause (fun n present ↦ below n ?_) (below _ (by simp [Clause.children]))
    simp [Clause.children, Option.mem_def.1 present]
  | case => exact readsBack_case (trees _ (List.mem_singleton_self _))
  | var => exact readsBack_var x
  | label => exact readsBack_label x
  | ty => exact readsBack_ty x
  | binaryOp => exact readsBack_binaryOp x
  | unaryOp => exact readsBack_unaryOp x
  | step => exact readsBack_step x
  | literal => exact readsBack_literal x
  | text => exact readsBack_text x
  | symbol => exact readsBack_symbol x
  | int => exact readsBack_int x

/-- A field reads back if the trees in it do. -/
theorem Content.readsBack {c : Content} {x : c.Carrier Node}
    (trees : ∀ n ∈ c.trees x, Base.ReadsBack .node n) : c.ReadsBack x := by
  cases c with
  | one b => exact Base.readsBack trees
  | option b =>
    exact readsBack_option fun y present ↦ Base.readsBack fun n member ↦
      trees n (List.mem_flatMap.2 ⟨y, Option.mem_toList.2 present, member⟩)
  | list b =>
    exact readsBack_list fun y present ↦ Base.readsBack fun n member ↦
      trees n (List.mem_flatMap.2 ⟨y, present, member⟩)

/-- A record reads back if the trees in it do, its fields having different names. -/
theorem Row.readsBack {fs : List Field} {row : Row Node fs} (names : (fs.map Field.name).Nodup)
    (trees : ∀ n ∈ Row.trees fs row, Base.ReadsBack .node n) : Row.ReadsBack fs row := by
  induction fs with
  | nil => exact Row.readsBack_nil
  | cons f fs ih =>
    obtain ⟨x, row⟩ := row
    rw [List.map_cons, List.nodup_cons] at names
    refine Row.readsBack_cons names.1 (Content.readsBack fun n member ↦ ?_)
      (ih names.2 fun n member ↦ ?_)
    · exact trees n (List.mem_append_left _ member)
    · exact trees n (List.mem_append_right _ member)

end Format

/-! ### Nodes -/

/-- No form has two fields of one name, or one named like the tag of nodes. -/
theorem Kind.names_nodup (k : Kind) : ("node" :: k.fields.map Field.name).Nodup := by
  cases k <;> decide

namespace Node

/-- A form is known from its tag. -/
theorem kind?_tag (k : Kind) : kind? (.str k.tag) = some k := by
  cases k <;> decide

/-- A written node is its form and the record of its layer. -/
theorem toJson_eq_obj (n : Node) : n.toJson = .obj (("node", .str n.shape.kind.tag) ::
    rowMembers n.shape.kind.fields (Row.map toJson n.shape.kind.fields n.shape.row)) := by
  rw [Format.toJson_eq, Shape.json, Shape.rowMembers_map, Shape.kind_map]

/-- The form of a node is known from the members it is written as. -/
theorem kindOfMembers?_readings {fs : List Field} (names : "node" ∉ fs.map Field.name)
    (k : Kind) (row : Row Node fs) :
    kindOfMembers? (("node", Json.fold reading (.str k.tag)) :: readings fs row) =
      some (k, readings fs row) := by
  have others : ∀ m ∈ readings fs row, ¬(m.1 == "node") = true := by
    intro m member same
    exact names (eq_of_beq same ▸ fst_mem_of_mem_readings member)
  have form : (("node", Json.fold reading (.str k.tag)) :: readings fs row).partition
      (fun m ↦ m.1 == "node") = ([("node", Json.fold reading (.str k.tag))], readings fs row) := by
    rw [List.partition_eq_filter_filter, List.filter_cons_of_pos rfl,
      List.filter_cons_of_neg (by simp), List.filter_eq_nil_iff.2 others,
      List.filter_eq_self.2 (by simpa using others)]
  rw [kindOfMembers?, form]
  show (kind? (.str k.tag)).map _ = _
  rw [kind?_tag]
  rfl

/-- A written node is read back up to the numbers of nodes. -/
theorem readsBack (n : Node) : Base.ReadsBack .node n := by
  induction n using induction with
  | step n ih =>
    obtain ⟨id, sh⟩ := n
    have names := List.nodup_cons.1 sh.kind.names_nodup
    have row : Row.ReadsBack sh.kind.fields sh.row :=
      Row.readsBack names.2 fun c member ↦ ih c (show c ∈ sh.children from sh.trees_row ▸ member)
    have members : (toJson ⟨id, sh⟩).fold reading = reading.obj
        (("node", .str sh.kind.tag) ::
          rowMembers sh.kind.fields (Row.map toJson sh.kind.fields sh.row))
        (("node", Json.fold reading (.str sh.kind.tag)) :: readings sh.kind.fields sh.row) := by
      rw [toJson_eq_obj]
      show reading.obj _ (Json.foldMembers reading _) = _
      rw [Json.foldMembers_eq]
      rfl
    have read : ((toJson ⟨id, sh⟩).fold reading).one .node =
        rowOfMembers sh.kind.fields (readings sh.kind.fields sh.row) >>= fun row ↦
          Read.ofBuild (Build.node (Shape.ofRow sh.kind row)) := by
      have form := kindOfMembers?_readings names.1 sh.kind sh.row
      rw [members]
      show ((kindOfMembers? _ : Read _) >>= fun form ↦ _) = _
      rw [form]
      rfl
    show Gives (((toJson ⟨id, sh⟩).fold reading).one .node) unnumbered (unnumbered ⟨id, sh⟩)
    rw [read]
    refine row.bind fun row' agrees supply ↦ ⟨_, _, rfl, ?_⟩
    have layer : (Shape.ofRow sh.kind row').map unnumbered = sh.map unnumbered := by
      rw [← Shape.ofRow_map, agrees, Shape.ofRow_map, Shape.ofRow_row]
    rw [unnumbered_eq, unnumbered_eq ⟨id, sh⟩]
    exact congrArg (Node.mk 0) layer

end Node

/-! ### Texts -/

namespace Format

theorem isPlain_toInt (n : Int64) : (Json.int n.toInt).isPlain := by
  have low := n.le_toInt
  have high := n.toInt_lt
  exact Json.isPlain_int.2 (by simp only [UInt64.size]; omega)

theorem isPlain_toNat (n : SymbolId) : (Json.int n.toNat).isPlain := by
  have high := n.toNat_lt
  exact Json.isPlain_int.2 (by simp only [UInt64.size]; omega)

/-- What may be absent is written plainly. -/
theorem isPlain_optionJson {α : Type} {write : α → Json} {o : Option α}
    (h : ∀ a ∈ o, (write a).isPlain) : (optionJson write o).isPlain := by
  cases o with
  | none => rfl
  | some a => exact h a rfl

/-- Variables are written plainly. -/
theorem isPlain_variableJson (v : Variable) : (variableJson v).isPlain :=
  Json.isPlain_obj.2 (by simpa using ⟨isPlain_toNat v.id, rfl, rfl⟩)

/-- Labels are written plainly. -/
theorem isPlain_labelJson (l : Label) : (labelJson l).isPlain :=
  Json.isPlain_obj.2 (by simpa using ⟨isPlain_toNat l.id, rfl⟩)

/-- Constants are written plainly. -/
theorem isPlain_literalJson (v : Literal) : (literalJson v).isPlain := by
  cases v with
  | null => rfl
  | unit => rfl
  | bool b => rfl
  | int n => exact Json.isPlain_obj.2 (by simpa using isPlain_toInt n)
  | str s => rfl

/-- What is written of a base is plain if what is written of its trees is. -/
theorem Base.isPlain_json {b : Base} {x : b.Carrier Json} (trees : ∀ j ∈ b.trees x, j.isPlain) :
    (b.json x).isPlain := by
  cases b with
  | node => exact trees x (List.mem_singleton_self x)
  | clause =>
    obtain ⟨binder, filter, body⟩ := x
    have below : ∀ j ∈ filter.toList ++ [body], j.isPlain := trees
    have parts : (optionJson variableJson binder).isPlain ∧ (optionJson id filter).isPlain ∧
        body.isPlain :=
      ⟨isPlain_optionJson fun v _ ↦ isPlain_variableJson v,
        isPlain_optionJson fun j present ↦ below j (by simp [Option.mem_def.1 present]),
        below body (by simp)⟩
    exact Json.isPlain_obj.2 (by simpa using parts)
  | case =>
    obtain ⟨tests, body⟩ := x
    have parts : (Json.arr (tests.map fun t ↦ .int t.toInt)).isPlain ∧ body.isPlain :=
      ⟨Json.isPlain_arr.2 (by simpa using fun t _ ↦ isPlain_toInt t),
        trees body (List.mem_singleton_self body)⟩
    exact Json.isPlain_obj.2 (by simpa using parts)
  | var => exact isPlain_variableJson x
  | label => exact isPlain_labelJson x
  | ty => rfl
  | binaryOp => rfl
  | unaryOp => rfl
  | step => rfl
  | literal => exact isPlain_literalJson x
  | text => rfl
  | symbol => exact isPlain_toNat x
  | int => exact isPlain_toInt x

/-- Content is written plainly if the trees in it are. -/
theorem Content.isPlain_json {c : Content} {x : c.Carrier Json}
    (trees : ∀ j ∈ c.trees x, j.isPlain) : (c.json x).isPlain := by
  cases c with
  | one b => exact Base.isPlain_json trees
  | option b =>
    exact isPlain_optionJson fun y present ↦ Base.isPlain_json fun j member ↦
      trees j (List.mem_flatMap.2 ⟨y, Option.mem_toList.2 present, member⟩)
  | list b =>
    refine Json.isPlain_arr.2 fun j written ↦ ?_
    obtain ⟨y, present, rfl⟩ := List.mem_map.1 written
    exact Base.isPlain_json fun j member ↦ trees j (List.mem_flatMap.2 ⟨y, present, member⟩)

/-- The members of a row are written plainly if the trees in it are. -/
theorem isPlain_of_mem_rowMembers {fs : List Field} {row : Row Json fs}
    (trees : ∀ j ∈ Row.trees fs row, j.isPlain) : ∀ m ∈ rowMembers fs row, m.2.isPlain := by
  induction fs with
  | nil => nofun
  | cons f fs ih =>
    obtain ⟨x, row⟩ := row
    refine List.forall_mem_cons.2 ⟨Content.isPlain_json fun j member ↦ ?_, ih fun j member ↦ ?_⟩
    · exact trees j (List.mem_append_left _ member)
    · exact trees j (List.mem_append_right _ member)

end Format

namespace Node

/-- The form of every tree that is written is a word. -/
theorem formIsWord_toJson (n : Node) : formIsWord n.toJson := by
  have names := List.nodup_cons.1 n.shape.kind.names_nodup
  rw [toJson_eq_obj, formIsWord, List.all_cons, Bool.and_eq_true]
  refine ⟨rfl, List.all_eq_true.2 fun m member ↦ ?_⟩
  have other : m.1 ≠ "node" := by
    rintro same
    refine names.1 (same ▸ ?_)
    rw [← map_fst_rowMembers]
    exact List.mem_map_of_mem member
  split
  · exact absurd rfl other
  · exact absurd rfl other
  · rfl

/-- Every tree is written plainly. -/
theorem isPlain_toJson (n : Node) : n.toJson.isPlain := by
  induction n using induction with
  | step n ih =>
    rw [Format.toJson_eq]
    refine Json.isPlain_obj.2 (List.forall_mem_cons.2 ⟨rfl, ?_⟩)
    refine isPlain_of_mem_rowMembers fun j member ↦ ?_
    rw [Shape.trees_row, Shape.children_map] at member
    obtain ⟨c, below, rfl⟩ := List.mem_map.1 member
    exact ih c below

/-- What a text is read as, if the value in it is read as a tree. -/
theorem read_of_ofJson {text : String} {j : Json} {s s' : Supply} {n : Node}
    (parsed : Json.read? text = some j) (value : ofJson j s = some (n, s')) :
    read text s = some (n, (Build.reserveThrough n.maxSymbolId s').2) := by
  rw [read, parsed]
  show (ofJson j s).bind (fun p ↦ _) = _
  rw [value]
  rfl

/-- What is written of a tree is read as a tree that agrees with it up to the numbers of nodes. -/
theorem ofJson_toJson (n : Node) (s : Supply) :
    ∃ n' s', ofJson n.toJson s = some (n', s') ∧ n'.unnumbered = n.unnumbered := by
  obtain ⟨n', s', run, agrees⟩ := n.readsBack s
  exact ⟨n', s', (congrFun (if_pos n.formIsWord_toJson) s).trans run, agrees⟩

/-- **The text of a tree is read back** as a tree with the same fields at every node, as far as the
reader follows the nesting. -/
theorem read_write (n : Node) (deep : n.toJson.depth ≤ 127) (supply : Supply) :
    ∃ n' supply', read n.write supply = some (n', supply') ∧ n'.unnumbered = n.unnumbered ∧
      n'.write = n.write := by
  obtain ⟨n', supply₁, value, agrees⟩ := n.ofJson_toJson supply
  have text : Json.read? n.write = some n.toJson := Json.read?_print n.isPlain_toJson deep
  exact ⟨n', _, read_of_ofJson text value, agrees,
    congrArg Json.print (toJson_eq_of_unnumbered agrees)⟩

/-- A clause whose filter compares the exception with a text that has to be escaped. -/
theorem read_write_filter : ∃ n : Node, n.toJson.depth ≤ 127 ∧
    ∃ n' supply', read n.write {} = some (n', supply') ∧ n'.unnumbered = n.unnumbered ∧
      n'.write = n.write := by
  let filter : Node :=
    ⟨4, .binary .eq ⟨2, .var ⟨UInt64.ofNat 18446744073709551615, "e", .any⟩⟩
      ⟨3, .const (.str "\"ä\n")⟩⟩
  let n : Node := ⟨6, .region ⟨1, .call "fail" []⟩
    [⟨some ⟨UInt64.ofNat 18446744073709551615, "e", .any⟩, some filter, ⟨5, .const (.int (-7))⟩⟩]
    none none⟩
  have deep : n.toJson.depth ≤ 127 := by decide
  exact ⟨n, deep, read_write n deep {}⟩

end Node

end Suspension
