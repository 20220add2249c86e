import Suspension.Proofs.Preparation.Census

/-!
# What the expansion hoists

A block that contains a suspend point gives up its variables when it is closed, and the blocks of a
tree are closed in postorder (`Node.hoistings`). The pass does not look for suspend points: it keeps
a flag for each open block. `Expand.Hoists` says of a computation which variables it hoists in which
order, whether it sets the flag of the innermost open block, and that nothing goes wrong before a
variable is hoisted twice; it goes through the steps of the pass like its books do. So the flags
find the blocks that contain a suspend point, whatever stands between the block and the suspend
point (`Node.expand_hoists`), and a tree in which no two blocks declare the same variable is
expanded without fail (`Node.expand_total`).
-/

namespace Suspension

namespace Node

/-- Every node of a tree, each after the nodes beneath it. -/
def postorder : Node → List Node :=
  fold fun n layer ↦ layer.children.flatten ++ [n]

/-- A tree comes behind its children. -/
theorem postorder_eq (n : Node) : n.postorder = n.children.flatMap postorder ++ [n] := by
  rw [postorder, fold_eq, Shape.children_map, List.flatMap_def]
  rfl

/-- The variables of the blocks that contain a suspend point, each with the number of its block. -/
def hoistings (n : Node) : List (Variable × NodeId) :=
  n.postorder.flatMap fun m ↦ if m.containsAwait then m.shape.declared.map (·, m.id) else []

/-- A layer is hoisted behind its children, if it suspends. -/
theorem hoistings_mk (i : NodeId) (sh : Shape Node) :
    hoistings ⟨i, sh⟩ = sh.children.flatMap hoistings ++
      if containsAwait ⟨i, sh⟩ then sh.declared.map (·, i) else [] := by
  rw [hoistings, postorder_eq, List.flatMap_append, List.flatMap_assoc, List.flatMap_singleton]
  rfl

/-- What is hoisted is declared. -/
theorem count_hoistings_le (n : Node) (id : SymbolId) :
    (n.hoistings.map (·.1.id)).count id ≤ n.declared.count id := by
  induction n using Node.induction with
  | step n ih =>
    obtain ⟨i, sh⟩ := n
    have row (ns : List Node) (le : ∀ c ∈ ns, (c.hoistings.map (·.1.id)).count id ≤
        c.declared.count id) :
        ((ns.flatMap hoistings).map (·.1.id)).count id ≤ (ns.flatMap declared).count id := by
      induction ns with
      | nil => exact Nat.le_refl _
      | cons c ns ih =>
        obtain ⟨head, tail⟩ := List.forall_mem_cons.1 le
        have := ih tail
        simp only [List.flatMap_cons, List.map_append, List.count_append]
        omega
    have below := row sh.children ih
    rw [hoistings_mk, declared_mk, List.map_append, List.count_append, List.count_append]
    split
    · have own : (sh.declared.map (·, i)).map (·.1.id) = sh.declared.map Variable.id := by
        rw [List.map_map]
        rfl
      rw [own]
      omega
    · rw [List.map_nil, List.count_nil]
      omega

end Node

/-- A variable in a list, with its block: the first that is there a second time, or that is among
the variables hoisted earlier. -/
def FirstRepeat (earlier : List SymbolId) (hs : List (Variable × NodeId)) (h : Variable × NodeId) :
    Prop :=
  ∃ before after, hs = before ++ h :: after ∧ (earlier ++ before.map (·.1.id)).Nodup ∧
    h.1.id ∈ earlier ++ before.map (·.1.id)

namespace FirstRepeat

variable {earlier : List SymbolId} {hs hs' : List (Variable × NodeId)} {h : Variable × NodeId}

/-- More variables behind a list do not change the first that repeats. -/
theorem append (first : FirstRepeat earlier hs h) (hs' : List (Variable × NodeId)) :
    FirstRepeat earlier (hs ++ hs') h := by
  obtain ⟨before, after, rfl, distinct, repeated⟩ := first
  exact ⟨before, after ++ hs', by rw [List.append_assoc]; rfl, distinct, repeated⟩

/-- Variables in front of a list count as earlier ones. -/
theorem behind (first : FirstRepeat (earlier ++ hs.map (·.1.id)) hs' h) :
    FirstRepeat earlier (hs ++ hs') h := by
  obtain ⟨before, after, rfl, distinct, repeated⟩ := first
  rw [List.append_assoc, ← List.map_append] at distinct repeated
  exact ⟨hs ++ before, after, by rw [List.append_assoc], distinct, repeated⟩

/-- Where there is a first repeat, something repeats. -/
theorem not_nodup (first : FirstRepeat earlier hs h) :
    ¬(earlier ++ hs.map (·.1.id)).Nodup := by
  obtain ⟨before, after, rfl, -, repeated⟩ := first
  rw [List.map_append, ← List.append_assoc]
  intro distinct
  exact (List.nodup_append.1 distinct).2.2 h.1.id repeated h.1.id List.mem_cons_self rfl

end FirstRepeat

/-- Variables are added up to the first that is there already. -/
theorem Scopes.hoist_cases {hoisted : List Variable} (distinct : (hoisted.map Variable.id).Nodup)
    (vs : List Variable) (block : NodeId) :
    hoist hoisted vs = (hoisted ++ vs, none) ∧ ((hoisted ++ vs).map Variable.id).Nodup ∨
      ∃ v rest, hoist hoisted vs = (rest, some v) ∧
        FirstRepeat (hoisted.map Variable.id) (vs.map (·, block)) (v, block) := by
  induction vs generalizing hoisted with
  | nil => exact .inl ⟨by rw [hoist, List.append_nil], by rwa [List.append_nil]⟩
  | cons v vs ih =>
    rw [hoist]
    by_cases there : v.id ∈ hoisted.map Variable.id
    · obtain ⟨w, inside, same⟩ := List.mem_map.1 there
      have repeated : hoisted.any v.same = true :=
        List.any_eq_true.2 ⟨w, inside, beq_iff_eq.2 same.symm⟩
      rw [if_pos repeated]
      refine .inr ⟨v, hoisted, rfl, [], vs.map (·, block), rfl, ?_, ?_⟩
      · simpa using distinct
      · simpa using there
    · have new : hoisted.any v.same = false := by
        refine List.any_eq_false.2 fun w inside same ↦ there ?_
        exact List.mem_map.2 ⟨w, inside, (beq_iff_eq.1 same).symm⟩
      have longer : ((hoisted ++ [v]).map Variable.id).Nodup := by
        rw [List.map_append]
        exact List.nodup_append.2 ⟨distinct, List.nodup_singleton _, by
          rintro id inside _ (_ | ⟨_, ⟨⟩⟩) rfl
          exact there inside⟩
      rw [new, if_neg Bool.false_ne_true]
      rcases ih longer with added | ⟨w, rest, stopped, first⟩
      · rw [List.append_assoc] at added
        exact .inl added
      · refine .inr ⟨w, rest, stopped, ?_⟩
        rw [List.map_append] at first
        exact @FirstRepeat.behind _ [(v, block)] _ _ first

namespace Expand

open Build

variable {α β : Type}

/-- A computation goes on with what its first step came to. -/
theorem bind_of_runs {x : Expand α} {f : α → Expand β} {r r' : Expansion} {a : α}
    (run : runs x r a r') : (x >>= f) r = f a r' := by
  replace run : x r = .ok (a, r') := run
  show (x r).bind (fun p ↦ f p.1 p.2) = _
  rw [run]
  rfl

/-- A computation stops where its first step was rejected. -/
theorem bind_of_error {x : Expand α} {r : Expansion} {rejection : Rejection}
    (failed : x r = .error rejection) (f : α → Expand β) : (x >>= f) r = .error rejection := by
  show (x r).bind (fun p ↦ f p.1 p.2) = _
  rw [failed]
  rfl

/-- A computation that hoists some variables, each declared by the block beside it, and marks the
innermost open block if it meets a suspend point. It fails at the first variable that was hoisted
before, and for no other reason. -/
def Hoists (x : Expand α) (suspends : Bool) (hs : List (Variable × NodeId)) : Prop :=
  ∀ r, (r.scopes.hoisted.map Variable.id).Nodup →
    (∃ a r', runs x r a r' ∧ r'.scopes = { r.scopes.markIf suspends with
        hoisted := r.scopes.hoisted ++ hs.map Prod.fst } ∧
      (r'.scopes.hoisted.map Variable.id).Nodup) ∨
    ∃ v block, x r = .error ⟨.hoistedTwice v, block⟩ ∧
      FirstRepeat (r.scopes.hoisted.map Variable.id) hs (v, block)

namespace Hoists

variable {b b' : Bool} {hs hs' : List (Variable × NodeId)}

/-- A step that hoists nothing and cannot fail. -/
theorem still {x : Expand α} (h : ∀ r, ∃ a r', runs x r a r' ∧ r'.scopes = r.scopes) :
    Hoists x false [] := by
  intro r distinct
  obtain ⟨a, r', run, same⟩ := h r
  refine .inl ⟨a, r', run, ?_, same ▸ distinct⟩
  simp [same, Scopes.markIf]

/-- What is hoisted step by step is hoisted in that order. -/
theorem bind {x : Expand α} {f : α → Expand β} (h : Hoists x b hs) (h' : ∀ a, Hoists (f a) b' hs') :
    Hoists (x >>= f) (b || b') (hs ++ hs') := by
  intro r distinct
  rcases h r distinct with ⟨a, r₁, run, scopes, distinct₁⟩ | ⟨v, block, failed, first⟩
  · rcases h' a r₁ distinct₁ with ⟨e, r', run', scopes', distinct'⟩ | ⟨v, block, failed, first⟩
    · refine .inl ⟨e, r', runs_bind.2 ⟨a, r₁, run, run'⟩, ?_, distinct'⟩
      rw [scopes', scopes, Adds.markIf_markIf, List.map_append, List.append_assoc]
    · refine .inr ⟨v, block, by rw [bind_of_runs run, failed], ?_⟩
      rw [scopes, List.map_append, List.map_map] at first
      exact first.behind
  · exact .inr ⟨v, block, bind_of_error failed f, first.append hs'⟩

/-- A step that hoists nothing, and what follows it. -/
theorem after {x : Expand α} {f : α → Expand β} (h : Hoists x false [])
    (h' : ∀ a, Hoists (f a) b hs) : Hoists (x >>= f) b hs :=
  h.bind h'

theorem pure (a : α) : Hoists (pure a : Expand α) false [] :=
  still fun r ↦ ⟨a, r, runs_pure.2 ⟨rfl, rfl⟩, rfl⟩

/-- What is built without an expansion hoists nothing. -/
theorem lift (b : Build α) : Hoists (liftM b : Expand α) false [] :=
  still fun _ ↦ ⟨_, _, runs_lift.2 ⟨rfl, rfl⟩, rfl⟩

/-- A computation, and steps after it that hoist nothing. -/
theorem before {x : Expand α} {f : α → Expand β} (h : Hoists x b hs)
    (h' : ∀ a, Hoists (f a) false []) : Hoists (x >>= f) b hs := by
  have := h.bind h'
  rwa [Bool.or_false, List.append_nil] at this

/-- A result that is only wrapped. -/
theorem wrap {x : Expand α} (h : Hoists x b hs) (f : α → β) : Hoists (do return f (← x)) b hs :=
  h.before fun a ↦ pure (f a)

/-- A change that leaves the scopes alone hoists nothing. -/
theorem modify {f : Expansion → Expansion} (h : ∀ r, (f r).scopes = r.scopes) :
    Hoists (modify f : Expand Unit) false [] :=
  still fun r ↦ ⟨(), f r, runs_modify.2 rfl, h r⟩

theorem get : Hoists (get : Expand Expansion) false [] :=
  still fun r ↦ ⟨r, r, runs_get.2 ⟨rfl, rfl⟩, rfl⟩

theorem closeRegion : Hoists closeRegion false [] :=
  still fun _ ↦ ⟨_, _, runs_closeRegion.2 ⟨rfl, rfl⟩, rfl⟩

/-- Noting a suspend point. -/
theorem mark : Hoists (changeScopes Scopes.mark) true [] := by
  intro r distinct
  refine .inl ⟨(), _, runs_changeScopes.2 rfl, ?_, distinct⟩
  rw [List.map_nil, List.append_nil]
  rfl

/-- A block is closed behind its statements. It gives up its variables if its flag was set
meanwhile, and sets the flag of the block around it then. -/
theorem block {statements : List (Expand Node)} (h : Hoists (statements.mapM fun s ↦ s) b hs)
    (declared : List Variable) (i : NodeId) :
    Hoists (Expand.block i declared statements) b
      (hs ++ if b then declared.map (·, i) else []) := by
  intro r distinct
  let opened : Expansion := { r with scopes := r.scopes.enter }
  have enters : runs (changeScopes Scopes.enter) r () opened := runs_changeScopes.2 rfl
  rw [Expand.block, bind_of_runs enters]
  -- Either the statements are expanded and the block is closed, or one of them is refused.
  rcases h opened distinct with ⟨es, r₁, run, scopes, distinct₁⟩ | ⟨v, block, failed, first⟩
  · have flagged : r₁.scopes = ⟨b :: r.scopes.suspends, r.scopes.hoisted ++ hs.map Prod.fst⟩ := by
      rw [scopes]
      cases b <;> rfl
    have ids : r₁.scopes.hoisted.map Variable.id =
        r.scopes.hoisted.map Variable.id ++ hs.map (·.1.id) := by
      rw [flagged, List.map_append, List.map_map]
      rfl
    have closing {kept : Bool} {after : Scopes}
        (exit : r₁.scopes.exit declared i = (.ok kept, after)) :
        ∃ e r', runs (do
            let es ← statements.mapM fun s ↦ s
            let kept ← exitBlock declared i
            node (.block (if kept then [] else declared) es) : Expand Node) opened e r' ∧
          r'.scopes = after :=
      ⟨_, _, runs_bind.2 ⟨es, r₁, run, runs_bind.2 ⟨kept, _, runs_exitBlock.2 ⟨after, exit, rfl⟩,
        runs_node.2 ⟨rfl, rfl⟩⟩⟩, rfl⟩
    -- Only a block whose flag was set gives up its variables, and only then one may be a repeat.
    cases b with
    | false =>
      have exit : r₁.scopes.exit declared i =
          (.ok false, ⟨r.scopes.suspends, r.scopes.hoisted ++ hs.map Prod.fst⟩) := by
        rw [flagged]
        rfl
      obtain ⟨e, r', run', after⟩ := closing exit
      refine .inl ⟨e, r', run', ?_, ?_⟩
      · rw [after, if_neg Bool.false_ne_true, List.append_nil]
        rfl
      · rw [after]
        rwa [flagged] at distinct₁
    | true =>
      rcases Scopes.hoist_cases distinct₁ declared i with
        ⟨added, longer⟩ | ⟨v, rest, stopped, first⟩
      · have exit : r₁.scopes.exit declared i = (.ok !declared.isEmpty, Scopes.mark
            ⟨r.scopes.suspends, r.scopes.hoisted ++ hs.map Prod.fst ++ declared⟩) := by
          rw [flagged] at added ⊢
          rw [Scopes.exit]
          simp [added]
        obtain ⟨e, r', run', after⟩ := closing exit
        refine .inl ⟨e, r', run', ?_, ?_⟩
        · rw [after, if_pos rfl, List.map_append, List.map_map, List.append_assoc]
          simp [Scopes.markIf, Scopes.mark, Function.comp_def]
        · rw [after]
          rwa [flagged] at longer
      · have exit : exitBlock declared i r₁ = .error ⟨.hoistedTwice v, i⟩ := by
          rw [flagged] at stopped
          rw [exitBlock, flagged, Scopes.exit]
          simp [stopped]
        refine .inr ⟨v, i, ?_, ?_⟩
        · rw [bind_of_runs run, bind_of_error exit]
        · rw [ids] at first
          rw [if_pos rfl]
          exact first.behind
  · exact .inr ⟨v, block, bind_of_error failed _, first.append _⟩

variable {f : α → Expand β} {p : α → Bool} {g : α → List (Variable × NodeId)}

/-! ### Rows and layers -/

/-- Each member of a list hoists for itself, in order. -/
theorem list {as : List α} (h : ∀ a ∈ as, Hoists (f a) (p a) (g a)) :
    Hoists (as.mapM f) (as.any p) (as.flatMap g) := by
  induction as with
  | nil =>
    rw [List.mapM_nil]
    exact pure []
  | cons a as ih =>
    obtain ⟨head, tail⟩ := List.forall_mem_cons.1 h
    rw [List.mapM_cons, List.any_cons, List.flatMap_cons]
    exact head.bind fun b ↦ (ih tail).wrap (b :: ·)

/-- What may be absent hoists if it is there. -/
theorem option {o : Option α} (h : ∀ a ∈ o, Hoists (f a) (p a) (g a)) :
    Hoists (o.mapM f) (o.toList.any p) (o.toList.flatMap g) := by
  cases o with
  | none => exact pure none
  | some a =>
    show Hoists (some <$> f a) _ _
    rw [map_eq_pure_bind, Option.toList_some, List.flatMap_singleton, List.any_cons, List.any_nil,
      Bool.or_false]
    exact (h a rfl).wrap some

/-- Clauses hoist for their filters and bodies, in order. -/
theorem clauses {cs : List (Clause α)}
    (h : ∀ a ∈ cs.flatMap Clause.children, Hoists (f a) (p a) (g a)) :
    Hoists (cs.mapM (Clause.mapM f)) ((cs.flatMap Clause.children).any p)
      ((cs.flatMap Clause.children).flatMap g) := by
  rw [List.any_flatMap, List.flatMap_assoc]
  refine list fun c member ↦ ?_
  obtain ⟨binder, filter, body⟩ := c
  have part {a : α} (inside : a ∈ filter.toList ++ [body]) : Hoists (f a) (p a) (g a) :=
    h a (List.mem_flatMap.2 ⟨_, member, inside⟩)
  rw [Clause.children, List.flatMap_append, List.flatMap_singleton, List.any_append, List.any_cons,
    List.any_nil, Bool.or_false]
  refine .bind (option fun a some ↦ part ?_) fun filter' ↦ ?_
  · exact List.mem_append_left _ (Option.mem_toList.2 some)
  · exact (part (List.mem_append_right _ (List.mem_singleton.2 rfl))).wrap _

/-- Cases hoist for their bodies, in order. -/
theorem cases {cs : List (Case α)} (h : ∀ a ∈ cs.map Case.body, Hoists (f a) (p a) (g a)) :
    Hoists (cs.mapM (Case.mapM f)) ((cs.map Case.body).any p) ((cs.map Case.body).flatMap g) := by
  rw [List.any_map, List.flatMap_map]
  exact list fun c member ↦ (h c.body (List.mem_map_of_mem member)).wrap _

/-- A layer is rebuilt unless its children hoist a variable twice. -/
theorem shape {sh : Shape α} (h : ∀ a ∈ sh.children, Hoists (f a) (p a) (g a)) :
    Hoists (sh.mapM f) (sh.children.any p) (sh.children.flatMap g) := by
  cases sh with
  | block declared statements => exact (list h).wrap _
  | call callee args => exact (list h).wrap _
  | region body cs cleanup fault =>
    simp only [Shape.children, List.mem_append, List.mem_cons, Option.mem_toList] at h
    simp only [Shape.children, List.cons_append, List.flatMap_cons, List.flatMap_append,
      List.append_assoc, List.any_cons, List.any_append]
    refine (h body (.inl (.inl (.inl rfl)))).bind fun _ ↦ ?_
    refine (clauses fun a inside ↦ h a (.inl (.inl (.inr inside)))).bind fun _ ↦ ?_
    refine (option fun a inside ↦ h a (.inl (.inr inside))).bind fun _ ↦ ?_
    exact (option fun a inside ↦ h a (.inr inside)).wrap _
  | switch value cs otherwise =>
    simp only [Shape.children, List.mem_append, List.mem_cons, Option.mem_toList] at h
    simp only [Shape.children, List.cons_append, List.flatMap_cons, List.flatMap_append,
      List.any_cons, List.any_append]
    refine (h value (.inl (.inl rfl))).bind fun _ ↦ ?_
    refine (cases fun a inside ↦ h a (.inl (.inr inside))).bind fun _ ↦ ?_
    exact (option fun a inside ↦ h a (.inr inside)).wrap _
  | branch test yes no =>
    simp only [Shape.children, List.mem_cons, Option.mem_toList] at h
    simp only [Shape.children, List.flatMap_cons, List.any_cons]
    refine (h test (.inl rfl)).bind fun _ ↦ (h yes (.inr (.inl rfl))).bind fun _ ↦ ?_
    exact (option fun a inside ↦ h a (.inr (.inr inside))).wrap _
  | lock l r | binary op l r =>
    simp only [Shape.children, List.mem_cons] at h
    simp only [Shape.children, List.flatMap_cons, List.flatMap_nil, List.append_nil, List.any_cons,
      List.any_nil, Bool.or_false]
    exact (h l (.inl rfl)).bind fun _ ↦ (h r (.inr (.inl rfl))).wrap _
  | ret value | raise value =>
    exact (option fun a inside ↦ h a (Option.mem_toList.2 inside)).wrap _
  | await o | awaiter _ o | loop o | assign _ o | unary _ o =>
    rw [Shape.children, List.flatMap_singleton, List.any_cons, List.any_nil, Bool.or_false]
    exact (h o (List.mem_singleton.2 rfl)).wrap _
  | label | goto | var | const | defaultOf => exact pure _

/-! ### The steps of the pass -/

variable {c : Contract}

/-- Allocating a resume point hoists nothing. -/
theorem allocate : Hoists (allocate c) false [] :=
  get.after fun r ↦ (lift (r.resumption.allocate c)).after fun ⟨_, _⟩ ↦
    after (modify fun _ ↦ rfl) fun _ ↦ pure _

theorem newField (name : String) (ty : Ty) : Hoists (newField name ty) false [] :=
  after (lift _) fun _ ↦ after (modify fun _ ↦ rfl) fun _ ↦ pure _

/-- A suspend point marks the block around it and hoists what its operand hoists. -/
theorem suspendPoint {operand : Expand Node} (h : Hoists operand b hs) (acquire : Option String)
    (result : Ty) : Hoists (suspendPoint c operand acquire result) true hs :=
  mark.bind fun _ ↦ h.before fun _ ↦ (lift _).after fun _ ↦
    (newField _ _).after fun _ ↦ allocate.after fun _ ↦ lift _

theorem foldRegion (closed : Table) (entry : Label) : Hoists (foldRegion closed entry) false [] :=
  get.after fun _ ↦ after (lift _) fun _ ↦ modify fun _ ↦ rfl

/-- Rebuilding a region hoists nothing. -/
theorem entered (table : Table) (body : Node) (clauses : List (Clause Node))
    (cleanup fault : Option Node) : Hoists (entered c table body clauses cleanup fault) false [] :=
  (lift _).after fun _ ↦ (lift _).after fun _ ↦ (lift _).after fun _ ↦ (lift _).after fun _ ↦
    (lift _).after fun _ ↦ after (lift _) fun _ ↦ (foldRegion _ _).after fun _ ↦
      (lift _).after fun _ ↦ (lift _).after fun _ ↦ lift _

/-- A region hoists what its children hoist. -/
theorem region {body : Node} {clauses : List (Clause Node)} {cleanup fault : Option Node}
    {f : Node → Expand Node} {p : Node → Bool} {g : Node → List (Variable × NodeId)}
    (h : ∀ a ∈ (Shape.region body clauses cleanup fault).children, Hoists (f a) (p a) (g a)) :
    Hoists (region c (f body) (clauses.map (Clause.map f)) (cleanup.map f) (fault.map f))
      ((Shape.region body clauses cleanup fault).children.any p)
      ((Shape.region body clauses cleanup fault).children.flatMap g) := by
  simp only [Shape.children, List.mem_append, List.mem_cons, Option.mem_toList] at h
  simp only [Shape.children, List.cons_append, List.flatMap_cons, List.flatMap_append,
    List.append_assoc, List.any_cons, List.any_append]
  rw [region_eq]
  refine after (modify fun _ ↦ rfl) fun _ ↦ (h body (.inl (.inl (.inl rfl)))).bind fun _ ↦ ?_
  refine (Hoists.clauses fun a inside ↦ h a (.inl (.inl (.inr inside)))).bind fun _ ↦ ?_
  refine (option fun a inside ↦ h a (.inl (.inr inside))).bind fun _ ↦ ?_
  refine (option fun a inside ↦ h a (.inr inside)).before fun _ ↦ closeRegion.after fun table ↦ ?_
  split
  · exact lift _
  · exact entered _ _ _ _ _

end Hoists

end Expand

/-- The expansion of a tree hoists the variables of the blocks that contain a suspend point, in
postorder, and leaves a mark if there is a suspend point in the tree. -/
theorem Node.expand_hoists (c : Contract) (n : Node) :
    (n.expand c).Hoists n.containsAwait n.hoistings := by
  induction n using Node.induction with
  | step n ih =>
    obtain ⟨i, sh⟩ := n
    have plain (notBlock : sh.declared = []) (notAwait : (sh.kind == .await) = false) :
        containsAwait ⟨i, sh⟩ = sh.children.any containsAwait ∧
          hoistings ⟨i, sh⟩ = sh.children.flatMap hoistings := by
      rw [containsAwait_mk, hoistings_mk, notBlock, notAwait, Bool.false_or, List.map_nil, ite_self,
        List.append_nil]
      exact ⟨rfl, rfl⟩
    rw [expand_eq]
    cases sh with
    | block declared statements =>
      have row : Expand.Hoists ((statements.map (expand c)).mapM fun s ↦ s)
          (statements.any containsAwait) (statements.flatMap hoistings) := by
        rw [List.mapM_map]
        exact .list ih
      have suspends : containsAwait ⟨i, .block declared statements⟩ =
          statements.any containsAwait :=
        containsAwait_mk _ _
      rw [hoistings_mk, suspends]
      exact row.block declared i
    | await operand acquire result =>
      have suspends : containsAwait ⟨i, .await operand acquire result⟩ = true :=
        containsAwait_mk _ _
      have undeclared : (Shape.await operand acquire result).declared = [] := rfl
      rw [hoistings_mk, suspends, Shape.children, List.flatMap_singleton, if_pos rfl, undeclared,
        List.map_nil, List.append_nil]
      exact (ih operand (List.mem_singleton.2 rfl)).suspendPoint acquire result
    | region body clauses cleanup fault =>
      obtain ⟨suspends, hoists⟩ := plain rfl rfl
      rw [suspends, hoists]
      exact .region ih
    | _ =>
      obtain ⟨suspends, hoists⟩ := plain rfl rfl
      rw [suspends, hoists]
      exact (Expand.Hoists.shape ih).before fun _ ↦ .lift _

/-- A tree in which no two blocks declare the same variable is expanded without fail. -/
theorem Node.expand_total {n : Node} (distinct : n.declared.Nodup) (c : Contract) (s : Supply) :
    ∃ e r, runs (n.expand c) { supply := s } e r := by
  rcases n.expand_hoists c { supply := s } .nil with ⟨e, r, run, -⟩ | ⟨v, block, -, first⟩
  · exact ⟨e, r, run⟩
  · refine absurd ?_ first.not_nodup
    rw [List.nodup_iff_count_le_one] at distinct ⊢
    exact fun id ↦ Nat.le_trans (n.count_hoistings_le id) (distinct id)

end Suspension
