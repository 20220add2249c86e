import Mathlib.Logic.Basic
import Suspension.Lowering.Lowered

/-!
# Passes as runs

A pass is a computation over a state: the supply of fresh numbers, or the whole state of the
expansion. All that is said of a pass is said of its runs, from a state to a result and a state, and
`Runs` is the interface for that: what `pure` and `bind` run to. Over it stands one lemma about
layers, `Runs.shape`: where a layer was rebuilt child by child, each child was, in this order and
with the state handed from one to the next.
-/

namespace Suspension

/-- Computations that take a state to a result and a state. -/
class Runs (m : Type → Type) [Monad m] (σ : outParam Type) where
  /-- A computation takes a state to a result and a state. -/
  runs : {α : Type} → m α → σ → α → σ → Prop
  runs_pure : ∀ {α : Type} {a b : α} {s s' : σ}, runs (pure a) s b s' ↔ b = a ∧ s' = s
  runs_bind : ∀ {α β : Type} {x : m α} {f : α → m β} {s s' : σ} {b : β},
    runs (x >>= f) s b s' ↔ ∃ a s₁, runs x s a s₁ ∧ runs (f a) s₁ b s'

export Runs (runs runs_pure runs_bind)

instance : Runs Build Supply where
  runs x s a s' := x s = (a, s')
  runs_pure := by
    intro α a b s s'
    change (a, s) = (b, s') ↔ _
    rw [Prod.mk.injEq, eq_comm, @eq_comm _ s]
  runs_bind := by
    intro α β x f s s' b
    change f (x s).1 (x s).2 = (b, s') ↔ _
    constructor
    · exact fun h ↦ ⟨_, _, rfl, h⟩
    · rintro ⟨a, s₁, run, run'⟩
      rw [run]
      exact run'

instance : Runs Expand Expansion where
  runs x s a s' := x s = .ok (a, s')
  runs_pure := by
    intro α a b s s'
    change Except.ok (a, s) = .ok (b, s') ↔ _
    rw [Except.ok.injEq, Prod.mk.injEq, eq_comm, @eq_comm _ s]
  runs_bind := by
    intro α β x f s s' b
    change Except.bind (x s) (fun p ↦ f p.1 p.2) = .ok (b, s') ↔ _
    cases x s with
    | error e => exact ⟨nofun, fun ⟨_, _, run, _⟩ ↦ nomatch run⟩
    | ok p =>
      constructor
      · exact fun h ↦ ⟨p.1, p.2, rfl, h⟩
      · rintro ⟨a, s₁, run, run'⟩
        cases run
        exact run'

instance : Runs Handlers.Collect (List Handlers.Leaving × Supply) where
  runs x s a s' := x s.1 s.2 = ((a, s'.1), s'.2)
  runs_pure := by
    intro α a b s s'
    change ((a, s.1), s.2) = ((b, s'.1), s'.2) ↔ _
    simp only [Prod.mk.injEq]
    constructor
    · rintro ⟨⟨rfl, h⟩, h'⟩
      exact ⟨rfl, Prod.ext h.symm h'.symm⟩
    · rintro ⟨rfl, rfl⟩
      exact ⟨⟨rfl, rfl⟩, rfl⟩
  runs_bind := by
    intro α β x f s s' b
    change f (x s.1 s.2).1.1 (x s.1 s.2).1.2 (x s.1 s.2).2 = ((b, s'.1), s'.2) ↔ _
    constructor
    · exact fun h ↦ ⟨_, ((x s.1 s.2).1.2, (x s.1 s.2).2), rfl, h⟩
    · rintro ⟨a, s₁, run, run'⟩
      rw [run]
      exact run'

/-! ### Layers -/

section Layers

variable {m : Type → Type} [Monad m] [LawfulMonad m] {σ : Type} [Runs m σ] {α β γ : Type}

/-- Results in a row, the state handed from one to the next. -/
inductive Threads (Q : α → σ → β → σ → γ → Prop) : List (α × β × γ) → σ → σ → Prop
  | nil (s : σ) : Threads Q [] s s
  | cons {a : α} {b : β} {g : γ} {xs : List (α × β × γ)} {s s₁ s' : σ} (head : Q a s b s₁ g)
    (tail : Threads Q xs s₁ s') : Threads Q ((a, b, g) :: xs) s s'

namespace Threads

variable {Q : α → σ → β → σ → γ → Prop}

theorem append {xs ys : List (α × β × γ)} {s s₁ s' : σ} (h : Threads Q xs s s₁)
    (h' : Threads Q ys s₁ s') : Threads Q (xs ++ ys) s s' := by
  induction h with
  | nil => exact h'
  | cons head _ ih => exact .cons head (ih h')

/-- What follows for each result follows for the row. -/
theorem mono {R : α → σ → β → σ → γ → Prop} {xs : List (α × β × γ)} {s s' : σ}
    (h : Threads Q xs s s')
    (imp : ∀ x ∈ xs, ∀ {s s'}, Q x.1 s x.2.1 s' x.2.2 → R x.1 s x.2.1 s' x.2.2) :
    Threads R xs s s' := by
  induction h with
  | nil => exact .nil _
  | cons head _ ih =>
    exact .cons (imp _ List.mem_cons_self head)
      (ih fun x member ↦ imp x (List.mem_cons_of_mem _ member))

/-- Each result was made somewhere in the row. -/
theorem of_mem {xs : List (α × β × γ)} {s s' : σ} (h : Threads Q xs s s') {x : α × β × γ}
    (member : x ∈ xs) : ∃ s₁ s₂, Q x.1 s₁ x.2.1 s₂ x.2.2 := by
  induction h with
  | nil => cases member
  | cons head _ ih =>
    rcases List.mem_cons.1 member with rfl | member
    · exact ⟨_, _, head⟩
    · exact ih member

/-- Along a row whose results never lessen something, each was made between start and end. -/
theorem between {f : σ → Nat} (mono : ∀ {a s b s' g}, Q a s b s' g → f s ≤ f s')
    {xs : List (α × β × γ)} {s s' : σ} (h : Threads Q xs s s') :
    f s ≤ f s' ∧ ∀ x ∈ xs, ∃ s₁ s₂, Q x.1 s₁ x.2.1 s₂ x.2.2 ∧ f s ≤ f s₁ ∧ f s₂ ≤ f s' := by
  induction h with
  | nil => exact ⟨Nat.le_refl _, nofun⟩
  | cons head tail ih =>
    have first := mono head
    refine ⟨Nat.le_trans first ih.1, List.forall_mem_cons.2 ⟨?_, fun x member ↦ ?_⟩⟩
    · exact ⟨_, _, head, Nat.le_refl _, ih.1⟩
    · obtain ⟨s₁, s₂, q, le, le'⟩ := ih.2 x member
      exact ⟨s₁, s₂, q, Nat.le_trans first le, le'⟩

end Threads

variable {Q : α → σ → β → σ → γ → Prop} {f : α → m β}

theorem Runs.list {as : List α} (h : ∀ a ∈ as, ∀ {s b s'}, runs (f a) s b s' → ∃ g, Q a s b s' g)
    {s s' : σ} {bs : List β} (run : runs (as.mapM f) s bs s') :
    ∃ xs : List (α × β × γ), xs.map Prod.fst = as ∧ xs.map (·.2.1) = bs ∧ Threads Q xs s s' := by
  induction as generalizing s bs with
  | nil =>
    rw [List.mapM_nil, runs_pure] at run
    obtain ⟨rfl, rfl⟩ := run
    exact ⟨[], rfl, rfl, .nil s'⟩
  | cons a as ih =>
    simp only [List.mapM_cons, runs_bind, runs_pure] at run
    obtain ⟨b, s₁, head, bs', s₂, tail, rfl, rfl⟩ := run
    obtain ⟨g, q⟩ := h a List.mem_cons_self head
    obtain ⟨xs, rfl, rfl, threads⟩ :=
      ih (fun a' member ↦ h a' (List.mem_cons_of_mem a member)) tail
    exact ⟨(a, b, g) :: xs, rfl, rfl, .cons q threads⟩

theorem Runs.option {o : Option α}
    (h : ∀ a ∈ o, ∀ {s b s'}, runs (f a) s b s' → ∃ g, Q a s b s' g) {s s' : σ} {o' : Option β}
    (run : runs (o.mapM f) s o' s') :
    ∃ x : Option (α × β × γ), x.map Prod.fst = o ∧ x.map (·.2.1) = o' ∧
      Threads Q x.toList s s' := by
  cases o with
  | none =>
    change runs (pure none : m (Option β)) s o' s' at run
    rw [runs_pure] at run
    obtain ⟨rfl, rfl⟩ := run
    exact ⟨none, rfl, rfl, .nil s'⟩
  | some a =>
    change runs (some <$> f a : m (Option β)) s o' s' at run
    rw [map_eq_pure_bind, runs_bind] at run
    obtain ⟨b, s₁, head, tail⟩ := run
    rw [runs_pure] at tail
    obtain ⟨rfl, rfl⟩ := tail
    obtain ⟨g, q⟩ := h a rfl head
    exact ⟨some (a, b, g), rfl, rfl, .cons q (.nil _)⟩

theorem Runs.clause {c : Clause α}
    (h : ∀ a ∈ c.children, ∀ {s b s'}, runs (f a) s b s' → ∃ g, Q a s b s' g) {s s' : σ}
    {c' : Clause β} (run : runs (c.mapM f) s c' s') :
    ∃ x : Clause (α × β × γ), x.map Prod.fst = c ∧ x.map (·.2.1) = c' ∧
      Threads Q x.children s s' := by
  obtain ⟨binder, filter, body⟩ := c
  simp only [Clause.mapM, runs_bind, runs_pure] at run
  obtain ⟨filter', s₁, filters, body', s₂, bodies, rfl, rfl⟩ := run
  obtain ⟨x, rfl, rfl, first⟩ :=
    Runs.option (fun a member ↦ h a (by simp [Clause.children, Option.mem_def.1 member])) filters
  obtain ⟨g, q⟩ := h body (by simp [Clause.children]) bodies
  exact ⟨⟨binder, x, (body, body', g)⟩, rfl, rfl, first.append (.cons q (.nil _))⟩

theorem Runs.clauses {cs : List (Clause α)}
    (h : ∀ a ∈ cs.flatMap Clause.children, ∀ {s b s'}, runs (f a) s b s' → ∃ g, Q a s b s' g)
    {s s' : σ} {cs' : List (Clause β)} (run : runs (cs.mapM (Clause.mapM f)) s cs' s') :
    ∃ xs : List (Clause (α × β × γ)), xs.map (Clause.map Prod.fst) = cs ∧
      xs.map (Clause.map (·.2.1)) = cs' ∧ Threads Q (xs.flatMap Clause.children) s s' := by
  induction cs generalizing s cs' with
  | nil =>
    rw [List.mapM_nil, runs_pure] at run
    obtain ⟨rfl, rfl⟩ := run
    exact ⟨[], rfl, rfl, .nil s'⟩
  | cons c cs ih =>
    simp only [List.mapM_cons, runs_bind, runs_pure] at run
    obtain ⟨c', s₁, head, cs', s₂, tail, rfl, rfl⟩ := run
    simp only [List.flatMap_cons, List.mem_append] at h
    obtain ⟨x, rfl, rfl, first⟩ := Runs.clause (fun a member ↦ h a (.inl member)) head
    obtain ⟨xs, rfl, rfl, rest⟩ := ih (fun a member ↦ h a (.inr member)) tail
    exact ⟨x :: xs, rfl, rfl, by rw [List.flatMap_cons]; exact first.append rest⟩

theorem Runs.cases {cs : List (Case α)}
    (h : ∀ a ∈ cs.map Case.body, ∀ {s b s'}, runs (f a) s b s' → ∃ g, Q a s b s' g)
    {s s' : σ} {cs' : List (Case β)} (run : runs (cs.mapM (Case.mapM f)) s cs' s') :
    ∃ xs : List (Case (α × β × γ)), xs.map (Case.map Prod.fst) = cs ∧
      xs.map (Case.map (·.2.1)) = cs' ∧ Threads Q (xs.map Case.body) s s' := by
  induction cs generalizing s cs' with
  | nil =>
    rw [List.mapM_nil, runs_pure] at run
    obtain ⟨rfl, rfl⟩ := run
    exact ⟨[], rfl, rfl, .nil s'⟩
  | cons c cs ih =>
    obtain ⟨tests, body⟩ := c
    simp only [List.mapM_cons, Case.mapM, runs_bind, runs_pure] at run
    obtain ⟨c', s₁, ⟨b, s₂, head, rfl, rfl⟩, cs', s₃, tail, rfl, rfl⟩ := run
    obtain ⟨g, q⟩ := h body (by simp) head
    obtain ⟨xs, rfl, rfl, rest⟩ :=
      ih (fun a member ↦ h a (by simp only [List.map_cons, List.mem_cons]; exact .inr member)) tail
    exact ⟨⟨tests, (body, b, g)⟩ :: xs, rfl, rfl, .cons q rest⟩

/-- A layer that was rebuilt child by child. -/
theorem Runs.shape {sh : Shape α}
    (h : ∀ a ∈ sh.children, ∀ {s b s'}, runs (f a) s b s' → ∃ g, Q a s b s' g) {s s' : σ}
    {sh' : Shape β} (run : runs (sh.mapM f) s sh' s') :
    ∃ x : Shape (α × β × γ), x.map Prod.fst = sh ∧ x.map (·.2.1) = sh' ∧
      Threads Q x.children s s' := by
  -- The children are visited in the order in which `Shape.children` lists them.
  cases sh with
  | block declared ns =>
    simp only [Shape.mapM, runs_bind, runs_pure] at run
    obtain ⟨ns', s₁, list, rfl, rfl⟩ := run
    obtain ⟨xs, rfl, rfl, threads⟩ := Runs.list h list
    exact ⟨.block declared xs, rfl, rfl, threads⟩
  | region body cs cleanup fault =>
    simp only [Shape.mapM, runs_bind, runs_pure] at run
    obtain ⟨body', s₁, bodies, cs', s₂, clauses, cleanup', s₃, cleanups, fault', s₄, faults, rfl,
      rfl⟩ := run
    simp only [Shape.children, List.mem_append, List.mem_cons, Option.mem_toList] at h
    obtain ⟨g, q⟩ := h body (by simp) bodies
    obtain ⟨xs, rfl, rfl, middle⟩ :=
      Runs.clauses (fun a member ↦ h a (.inl (.inl (.inr member)))) clauses
    obtain ⟨x, rfl, rfl, last⟩ := Runs.option (fun a member ↦ h a (.inl (.inr member))) cleanups
    obtain ⟨y, rfl, rfl, last'⟩ := Runs.option (fun a member ↦ h a (.inr member)) faults
    refine ⟨.region (body, body', g) xs x y, rfl, rfl, ?_⟩
    exact .append (.append (.cons q middle) last) last'
  | switch value cs otherwise =>
    simp only [Shape.mapM, runs_bind, runs_pure] at run
    obtain ⟨value', s₁, values, cs', s₂, cases, otherwise', s₃, others, rfl, rfl⟩ := run
    simp only [Shape.children, List.mem_append, List.mem_cons, Option.mem_toList] at h
    obtain ⟨g, q⟩ := h value (by simp) values
    obtain ⟨xs, rfl, rfl, middle⟩ := Runs.cases (fun a member ↦ h a (.inl (.inr member))) cases
    obtain ⟨x, rfl, rfl, last⟩ := Runs.option (fun a member ↦ h a (.inr member)) others
    refine ⟨.switch (value, value', g) xs x, rfl, rfl, ?_⟩
    exact .append (.cons q middle) last
  | branch test yes no =>
    simp only [Shape.mapM, runs_bind, runs_pure] at run
    obtain ⟨test', s₁, tests, yes', s₂, sides, no', s₃, others, rfl, rfl⟩ := run
    simp only [Shape.children, List.mem_cons, Option.mem_toList] at h
    obtain ⟨g, q⟩ := h test (by simp) tests
    obtain ⟨g', q'⟩ := h yes (by simp) sides
    obtain ⟨x, rfl, rfl, last⟩ := Runs.option (fun a member ↦ h a (.inr (.inr member))) others
    exact ⟨.branch (test, test', g) (yes, yes', g') x, rfl, rfl, .cons q (.cons q' last)⟩
  | lock guard body =>
    simp only [Shape.mapM, runs_bind, runs_pure] at run
    obtain ⟨guard', s₁, guards, body', s₂, bodies, rfl, rfl⟩ := run
    obtain ⟨g, q⟩ := h guard (by simp [Shape.children]) guards
    obtain ⟨g', q'⟩ := h body (by simp [Shape.children]) bodies
    exact ⟨.lock (guard, guard', g) (body, body', g'), rfl, rfl, .cons q (.cons q' (.nil _))⟩
  | binary op l r =>
    simp only [Shape.mapM, runs_bind, runs_pure] at run
    obtain ⟨l', s₁, lefts, r', s₂, rights, rfl, rfl⟩ := run
    obtain ⟨g, q⟩ := h l (by simp [Shape.children]) lefts
    obtain ⟨g', q'⟩ := h r (by simp [Shape.children]) rights
    exact ⟨.binary op (l, l', g) (r, r', g'), rfl, rfl, .cons q (.cons q' (.nil _))⟩
  | call callee args =>
    simp only [Shape.mapM, runs_bind, runs_pure] at run
    obtain ⟨args', s₁, list, rfl, rfl⟩ := run
    obtain ⟨xs, rfl, rfl, threads⟩ := Runs.list h list
    exact ⟨.call callee xs, rfl, rfl, threads⟩
  | ret value =>
    simp only [Shape.mapM, runs_bind, runs_pure] at run
    obtain ⟨value', s₁, values, rfl, rfl⟩ := run
    simp only [Shape.children, Option.mem_toList] at h
    obtain ⟨x, rfl, rfl, threads⟩ := Runs.option h values
    exact ⟨.ret x, rfl, rfl, threads⟩
  | raise value =>
    simp only [Shape.mapM, runs_bind, runs_pure] at run
    obtain ⟨value', s₁, values, rfl, rfl⟩ := run
    simp only [Shape.children, Option.mem_toList] at h
    obtain ⟨x, rfl, rfl, threads⟩ := Runs.option h values
    exact ⟨.raise x, rfl, rfl, threads⟩
  | await o acquire result =>
    simp only [Shape.mapM, runs_bind, runs_pure] at run
    obtain ⟨o', s₁, operand, rfl, rfl⟩ := run
    obtain ⟨g, q⟩ := h o (by simp [Shape.children]) operand
    exact ⟨.await (o, o', g) acquire result, rfl, rfl, .cons q (.nil _)⟩
  | awaiter step o =>
    simp only [Shape.mapM, runs_bind, runs_pure] at run
    obtain ⟨o', s₁, operand, rfl, rfl⟩ := run
    obtain ⟨g, q⟩ := h o (by simp [Shape.children]) operand
    exact ⟨.awaiter step (o, o', g), rfl, rfl, .cons q (.nil _)⟩
  | loop body breakLabel continueLabel =>
    simp only [Shape.mapM, runs_bind, runs_pure] at run
    obtain ⟨body', s₁, operand, rfl, rfl⟩ := run
    obtain ⟨g, q⟩ := h body (by simp [Shape.children]) operand
    exact ⟨.loop (body, body', g) breakLabel continueLabel, rfl, rfl, .cons q (.nil _)⟩
  | assign target value =>
    simp only [Shape.mapM, runs_bind, runs_pure] at run
    obtain ⟨value', s₁, operand, rfl, rfl⟩ := run
    obtain ⟨g, q⟩ := h value (by simp [Shape.children]) operand
    exact ⟨.assign target (value, value', g), rfl, rfl, .cons q (.nil _)⟩
  | unary op o =>
    simp only [Shape.mapM, runs_bind, runs_pure] at run
    obtain ⟨o', s₁, operand, rfl, rfl⟩ := run
    obtain ⟨g, q⟩ := h o (by simp [Shape.children]) operand
    exact ⟨.unary op (o, o', g), rfl, rfl, .cons q (.nil _)⟩
  | label target =>
    simp only [Shape.mapM, runs_pure] at run
    obtain ⟨rfl, rfl⟩ := run
    exact ⟨.label target, rfl, rfl, .nil _⟩
  | goto target =>
    simp only [Shape.mapM, runs_pure] at run
    obtain ⟨rfl, rfl⟩ := run
    exact ⟨.goto target, rfl, rfl, .nil _⟩
  | var v =>
    simp only [Shape.mapM, runs_pure] at run
    obtain ⟨rfl, rfl⟩ := run
    exact ⟨.var v, rfl, rfl, .nil _⟩
  | const value =>
    simp only [Shape.mapM, runs_pure] at run
    obtain ⟨rfl, rfl⟩ := run
    exact ⟨.const value, rfl, rfl, .nil _⟩
  | defaultOf ty =>
    simp only [Shape.mapM, runs_pure] at run
    obtain ⟨rfl, rfl⟩ := run
    exact ⟨.defaultOf ty, rfl, rfl, .nil _⟩

end Layers

/-- Running the actions in a layer is rebuilding the layer. -/
theorem Shape.sequence_map {m : Type → Type} [Monad m] [LawfulMonad m] {α β : Type} (f : α → m β)
    (sh : Shape α) : (sh.map f).sequence = sh.mapM f := by
  have option (o : Option α) : (o.map f).mapM id = o.mapM f := by cases o <;> rfl
  have clause (c : Clause α) : (c.map f).mapM id = c.mapM f := by
    rw [Clause.mapM, Clause.mapM, Clause.map, option]
    rfl
  have single (c : Case α) : (c.map f).mapM id = c.mapM f := rfl
  cases sh <;>
    simp [sequence, mapM, map, option, clause, single, List.mapM_map, Function.comp_def]

end Suspension
