import Suspension.Proofs.Dumps.Words
import Suspension.Proofs.Preparation.NormalForm

/-!
# What a dump tells of its tree

Trees whose names are words have the same dump if and only if they agree in what is shown
(`Node.dump_eq_iff`), and two of them that show all their operators are structurally equal then
(`Node.alike_of_dump_eq`).

A dump falls into the tokens of its tree and no others, and every list of children ends at a token
that none of them starts with. So what is shown of a tree is known from any tokens that start with
its own (`Node.determined`), by induction over the tree, one form at a time.
-/

namespace Suspension

open Rendering (inlineForm)
open Token

/-! ### Parts of a node -/

/-- The form of a node is known from its first tokens. -/
theorem Node.kind?_tokens (n : Node) (rest : List Token) :
    kind? (n.tokens ++ rest) = some n.kind := by
  rw [tokens_eq, Shape.kind?_tokens, Shape.kind_map]
  rfl

/-- What is shown of a tree is known from any tokens that start with its own. -/
def Node.Determined (m : Node) : Prop :=
  ∀ (n : Node) (rest rest' : List Token), m.tokens ++ rest = n.tokens ++ rest' →
    m.shown = n.shown ∧ rest = rest'

theorem items_cons (b : Bool) (ts : List Token) (tss : List (List Token)) :
    items b (ts :: tss) = item b ts ++ items b tss :=
  List.flatMap_cons

/-- Tokens that are no words. -/
def Token.NoWord (t : Token) : Prop :=
  ∀ w, t ≠ .word w

section

variable {m n : Node} {rest rest' : List Token}

/-- A node does not start with a line end or with a closing parenthesis. -/
theorem tokens_ne_mark {c : Char} (noParenthesis : c ≠ '(') (t : List Token) :
    n.tokens ++ rest ≠ .mark c :: t := by
  intro same
  have form := n.kind?_tokens rest
  have none : kind? (.mark c :: t) = none := by
    unfold kind?
    split <;> simp_all
  rw [same, none] at form
  cases form

/-- Nodes start alike behind an operator, whether or not they stand on its line. -/
theorem item_cancel {b b' : Bool} (h : item b m.tokens ++ rest = item b' n.tokens ++ rest') :
    m.tokens ++ rest = n.tokens ++ rest' := by
  cases b <;> cases b'
  · exact (List.cons.inj h).2
  · exact absurd h.symm (tokens_ne_mark (by decide) _)
  · exact absurd h (tokens_ne_mark (by decide) _)
  · exact h

/-- Children are known from what they are written as, up to a closing parenthesis. -/
theorem items_unique {b b' : Bool} (ms ns : List Node) (each : ∀ m ∈ ms, m.Determined)
    (h : items b (ms.map Node.tokens) ++ .mark ')' :: rest =
      items b' (ns.map Node.tokens) ++ .mark ')' :: rest') :
    ms.map Node.shown = ns.map Node.shown ∧ rest = rest' := by
  have ends {b : Bool} {n : Node} (t t' : List Token) : item b n.tokens ++ t ≠ .mark ')' :: t' := by
    cases b
    · exact fun same ↦ absurd (List.cons.inj same).1 (by decide)
    · exact tokens_ne_mark (by decide) _
  induction ms generalizing ns with
  | nil =>
    cases ns with
    | nil => exact ⟨rfl, (List.cons.inj h).2⟩
    | cons n ns =>
      rw [List.map_cons, items_cons, List.append_assoc] at h
      exact absurd h.symm (ends _ _)
  | cons m ms ih =>
    obtain ⟨first, others⟩ := List.forall_mem_cons.1 each
    cases ns with
    | nil =>
      rw [List.map_cons, items_cons, List.append_assoc] at h
      exact absurd h (ends _ _)
    | cons n ns =>
      rw [List.map_cons, List.map_cons, items_cons, items_cons, List.append_assoc,
        List.append_assoc] at h
      obtain ⟨head, tail⟩ := first n _ _ (item_cancel h)
      obtain ⟨shown, rest⟩ := ih ns others tail
      rw [List.map_cons, List.map_cons, head, shown]
      exact ⟨rfl, rest⟩

/-- A child is known from any tokens that start with its own. -/
theorem child_unique {b b' : Bool} (each : m.Determined)
    (h : items b [m.tokens] ++ rest = items b' [n.tokens] ++ rest') :
    m.shown = n.shown ∧ rest = rest' := by
  have one (b : Bool) (n : Node) : items b [n.tokens] = item b n.tokens := List.append_nil _
  rw [one, one] at h
  exact each n _ _ (item_cancel h)

/-- Words are known from what they are written as, up to what is no word. -/
theorem words_unique {ws ws' : List String} (ends : ∀ t ∈ rest.head?, t.NoWord)
    (ends' : ∀ t ∈ rest'.head?, t.NoWord) (h : ws.map .word ++ rest = ws'.map .word ++ rest') :
    ws = ws' ∧ rest = rest' := by
  have words (ws : List String) : ∀ t ∈ ws.map Token.word, ¬ t.NoWord :=
    List.forall_mem_map.2 fun w _ noWord ↦ noWord w rfl
  obtain ⟨same, rest⟩ := append_unique (words ws) (words ws') ends ends' h
  exact ⟨List.map_injective_iff.2 (fun _ _ eq ↦ Token.word.inj eq) same, rest⟩

/-- Words and a child behind them. -/
theorem header_unique {ws ws' : List String} (each : m.Determined)
    (h : ws.map .word ++ (items false [m.tokens] ++ .mark ')' :: rest) =
      ws'.map .word ++ (items false [n.tokens] ++ .mark ')' :: rest')) :
    ws = ws' ∧ m.shown = n.shown ∧ rest = rest' := by
  obtain ⟨words, content⟩ := words_unique (by rintro _ ⟨⟩ w ⟨⟩) (by rintro _ ⟨⟩ w ⟨⟩) h
  obtain ⟨child, last⟩ := child_unique each content
  exact ⟨words, child, (List.cons.inj last).2⟩

/-- What stands between parentheses. -/
theorem group_cancel {t t' : Token} {ts ts' : List Token}
    (h : group (t :: ts) ++ rest = group (t' :: ts') ++ rest') :
    t = t' ∧ ts ++ .mark ')' :: rest = ts' ++ .mark ')' :: rest' := by
  simpa [group] using h

/-- An operator with two operands is known from its tokens, whether or not its operands stand on its
line. -/
theorem binary_cancel {op op' : BinaryOp} {b b' : Bool} {ts ts' : List Token}
    (h : group ((if b then [.word op.sign] else [.word "binary", .word op.sign]) ++ ts) ++ rest =
      group ((if b' then [.word op'.sign] else [.word "binary", .word op'.sign]) ++ ts') ++ rest') :
    op = op' ∧ ts ++ .mark ')' :: rest = ts' ++ .mark ')' :: rest' := by
  have sign (op : BinaryOp) : op.sign ≠ "binary" := by cases op <;> decide
  cases b <;> cases b' <;> obtain ⟨head, h⟩ := group_cancel h
  · obtain ⟨head, h⟩ := List.cons.inj h
    exact ⟨BinaryOp.sign_injective (word.inj head), h⟩
  · exact absurd (word.inj head).symm (sign op')
  · exact absurd (word.inj head) (sign op)
  · exact ⟨BinaryOp.sign_injective (word.inj head), h⟩

/-- Parts of a node are told apart by their headings. -/
theorem part_cancel {heading heading' content content' : List Token}
    (h : part heading content ++ rest = part heading' content' ++ rest') :
    heading ++ (content ++ .mark ')' :: rest) = heading' ++ (content' ++ .mark ')' :: rest') := by
  simpa [part, group] using h

/-- Parts under one heading are known from what they are written as, up to another heading. -/
theorem parts_unique {α β : Type} {as bs : List α} {E : α → List Token} {V : α → β}
    {heading : String} (starts : ∀ a rest, heading? (E a ++ rest) = some heading)
    (each : ∀ a ∈ as, ∀ b rest rest', E a ++ rest = E b ++ rest' → V a = V b ∧ rest = rest')
    (ends : heading? rest ≠ some heading) (ends' : heading? rest' ≠ some heading)
    (h : as.flatMap E ++ rest = bs.flatMap E ++ rest') : as.map V = bs.map V ∧ rest = rest' := by
  induction as generalizing bs with
  | nil =>
    cases bs with
    | nil => exact ⟨rfl, h⟩
    | cons b bs =>
      obtain rfl : rest = _ := h
      rw [List.flatMap_cons, List.append_assoc] at ends
      exact absurd (starts _ _) ends
  | cons a as ih =>
    obtain ⟨first, others⟩ := List.forall_mem_cons.1 each
    rw [List.flatMap_cons, List.append_assoc] at h
    cases bs with
    | nil =>
      obtain rfl : _ = rest' := h
      exact absurd (starts _ _) ends'
    | cons b bs =>
      rw [List.flatMap_cons, List.append_assoc] at h
      obtain ⟨head, tail⟩ := first b _ _ h
      obtain ⟨shown, rest⟩ := ih others tail
      rw [List.map_cons, List.map_cons, head, shown]
      exact ⟨rfl, rest⟩

/-- A child does not start like a part. -/
theorem heading?_items {heading : String} (noHead : heads.lookup heading = none) (n : Node)
    (rest : List Token) : heading? (items false [n.tokens] ++ rest) ≠ some heading := by
  intro same
  have form := n.kind?_tokens rest
  have text : items false [n.tokens] ++ rest = line :: (n.tokens ++ rest) := by
    simp [items, item]
  rw [text] at same
  generalize n.tokens ++ rest = ts at form same
  unfold heading? at same
  split at same
  · rename_i w ts' eq
    obtain rfl := Option.some.inj same
    obtain ⟨-, rfl⟩ := List.cons.inj eq
    have found : heads.lookup w = some n.kind := form
    rw [noHead] at found
    cases found
  · cases same

theorem toList_injective {α : Type} {o o' : Option α} (h : o.toList = o'.toList) : o = o' := by
  cases o <;> cases o' <;> simp_all

/-- A child under a heading, where there may be one. -/
theorem headed_unique {heading : String} {o o' : Option Node} (each : ∀ m ∈ o, m.Determined)
    (ends : heading? rest ≠ some heading) (ends' : heading? rest' ≠ some heading)
    (h : (o.map Node.tokens).toList.flatMap (headed heading) ++ rest =
      (o'.map Node.tokens).toList.flatMap (headed heading) ++ rest') :
    o.map Node.shown = o'.map Node.shown ∧ rest = rest' := by
  have part (m : Node) (inside : m ∈ o.toList) (n : Node) (rest rest' : List Token)
      (same : headed heading m.tokens ++ rest = headed heading n.tokens ++ rest') :
      m.shown = n.shown ∧ rest = rest' := by
    obtain ⟨shown, rest⟩ := child_unique (each m (Option.mem_toList.1 inside))
      (List.cons.inj (part_cancel same)).2
    exact ⟨shown, (List.cons.inj rest).2⟩
  rw [Option.toList_map, Option.toList_map, List.flatMap_map, List.flatMap_map] at h
  obtain ⟨same, rest⟩ := parts_unique (fun _ _ ↦ rfl) part ends ends' h
  rw [← Option.toList_map, ← Option.toList_map] at same
  exact ⟨toList_injective same, rest⟩

/-- A clause is known from its tokens. -/
theorem clause_unique {c d : Clause Node} (each : ∀ m ∈ c.children, m.Determined)
    (h : Token.clause (c.map Node.tokens) ++ rest = Token.clause (d.map Node.tokens) ++ rest') :
    (c.map Node.shown).shown = (d.map Node.shown).shown ∧ rest = rest' := by
  obtain ⟨binder, filter, body⟩ := c
  obtain ⟨binder', filter', body'⟩ := d
  obtain ⟨filters, bodies⟩ := List.forall_mem_append.1 each
  have words (o : Option Variable) : (o.toList.map fun v ↦ Token.word v.text) =
      (o.toList.map Variable.text).map .word := by
    cases o <;> rfl
  have starts (o : Option Node) (n : Node) (rest : List Token) : ∀ t ∈
      ((o.map Node.tokens).toList.flatMap (headed "when") ++ items false [n.tokens] ++ rest).head?,
      t.NoWord := by
    cases o <;> rintro _ ⟨⟩ w ⟨⟩
  have apart := (List.cons.inj (part_cancel h)).2
  rw [words, words] at apart
  obtain ⟨binders, content⟩ := words_unique (starts _ _ _) (starts _ _ _) apart
  simp only [List.append_assoc] at content
  obtain ⟨filter, last⟩ := headed_unique (fun m inside ↦ filters m (Option.mem_toList.2 inside))
    (heading?_items rfl _ _) (heading?_items rfl _ _) content
  obtain ⟨body, rest⟩ := child_unique (bodies _ List.mem_cons_self) last
  refine ⟨?_, (List.cons.inj rest).2⟩
  have shown := Variable.shown_of_texts binders
  rw [← Option.toList_map, ← Option.toList_map] at shown
  replace shown : binder.map Variable.shown = binder'.map Variable.shown := toList_injective shown
  simp only [Clause.map, Clause.shown, shown, filter, body]

/-- A case is known from its tokens. -/
theorem case_unique {c d : Case Node} (each : c.body.Determined)
    (h : Token.case (c.map Node.tokens) ++ rest = Token.case (d.map Node.tokens) ++ rest') :
    c.map Node.shown = d.map Node.shown ∧ rest = rest' := by
  obtain ⟨tests, body⟩ := c
  obtain ⟨tests', body'⟩ := d
  have words (tests : List Int64) : (tests.map fun t ↦ Token.word (toString t.toInt)) =
      (tests.map fun t ↦ toString t.toInt).map .word := by
    rw [List.map_map]
    rfl
  have apart := (List.cons.inj (part_cancel h)).2
  rw [words, words] at apart
  obtain ⟨numbers, body, rest⟩ := header_unique each apart
  have injective : Function.Injective fun t : Int64 ↦ toString t.toInt :=
    fun _ _ same ↦ Int64.toInt_inj.1 (toString_injective same)
  have same : tests = tests' := List.map_injective_iff.2 injective numbers
  exact ⟨by simp only [Case.map, same, body], rest⟩

/-- The variables of a block are known from what they are written as. -/
theorem names_unique {vs vs' : List Variable} (ends : ∀ t ∈ rest.head?, t ≠ .mark '[')
    (ends' : ∀ t ∈ rest'.head?, t ≠ .mark '[') (h : names vs ++ rest = names vs' ++ rest') :
    vs.map Variable.shown = vs'.map Variable.shown ∧ rest = rest' := by
  have inner {v : Variable} {vs : List Variable} (rest : List Token) : names (v :: vs) ++ rest =
      .mark '[' :: (((v :: vs).map Variable.text).map .word ++ .mark ']' :: rest) := by
    simp [names]
  cases vs with
  | nil =>
    cases vs' with
    | nil => exact ⟨rfl, h⟩
    | cons v vs' =>
      obtain rfl : rest = _ := h
      rw [inner] at ends
      exact absurd rfl (ends _ rfl)
  | cons v vs =>
    cases vs' with
    | nil =>
      obtain rfl : _ = rest' := h
      rw [inner] at ends'
      exact absurd rfl (ends' _ rfl)
    | cons v' vs' =>
      rw [inner, inner] at h
      obtain ⟨texts, rest⟩ := words_unique (by rintro _ ⟨⟩ w ⟨⟩) (by rintro _ ⟨⟩ w ⟨⟩)
        (List.cons.inj h).2
      exact ⟨Variable.shown_of_texts texts, (List.cons.inj rest).2⟩

end

/-! ### Forms -/

section

variable {rest rest' : List Token}

/-- The words in front of the operand of a suspend point. -/
def awaitWords (result : Ty) (acquire : Option String) : List String :=
  result.name :: acquire.toList.flatMap fun name ↦ ["via", name]

/-- The words in front of an operand tell the type of the result and how the awaiter is acquired. -/
theorem awaitWords_injective {result result' : Ty} {acquire acquire' : Option String}
    (h : awaitWords result acquire = awaitWords result' acquire') :
    result = result' ∧ acquire = acquire' := by
  obtain ⟨name, others⟩ := List.cons.inj h
  refine ⟨Ty.name_injective name, ?_⟩
  cases acquire <;> cases acquire' <;> simp_all

theorem await_tokens (result : Ty) (acquire : Option String) (ts : List Token) :
    .word result.name :: (acquire.toList.flatMap (fun name ↦ [.word "via", .word name]) ++ ts) =
      (awaitWords result acquire).map .word ++ ts := by
  cases acquire <;> rfl

/-- The words in front of the body of a loop. -/
def loopWords (breakLabel continueLabel : Option Label) : List String :=
  breakLabel.toList.map (fun l ↦ "break" ++ "=" ++ l.text) ++
    continueLabel.toList.map fun l ↦ "continue" ++ "=" ++ l.text

/-- The words in front of a body tell the labels of the loop. -/
theorem loopWords_injective {b b' c c' : Option Label} (h : loopWords b c = loopWords b' c') :
    b = b' ∧ c = c' := by
  have apart (s t : String) : "break" ++ "=" ++ s ≠ "continue" ++ "=" ++ t := by
    intro same
    have letters := congrArg String.toList same
    simp at letters
  have swapped (s t : String) := (apart s t).symm
  cases b <;> cases b' <;> cases c <;> cases c' <;> simp_all [loopWords, Label.text_inj]

theorem loop_tokens (b c : Option Label) (ts : List Token) :
    named "break" b ++ (named "continue" c ++ ts) = (loopWords b c).map .word ++ ts := by
  cases b <;> cases c <;> rfl

/-- The parts of a region are known from their tokens. -/
theorem region_unique {body body' : Node} {cs cs' : List (Clause Node)}
    {cleanup cleanup' fault fault' : Option Node}
    (each : ∀ m ∈ (Shape.region body cs cleanup fault).children, m.Determined)
    (h : items false [body.tokens] ++ ((cs.map (Clause.map Node.tokens)).flatMap Token.clause ++
      ((cleanup.map Node.tokens).toList.flatMap (headed "finally") ++
        ((fault.map Node.tokens).toList.flatMap (headed "fault") ++ .mark ')' :: rest))) =
      items false [body'.tokens] ++ ((cs'.map (Clause.map Node.tokens)).flatMap Token.clause ++
      ((cleanup'.map Node.tokens).toList.flatMap (headed "finally") ++
        ((fault'.map Node.tokens).toList.flatMap (headed "fault") ++ .mark ')' :: rest')))) :
    body.shown = body'.shown ∧
      cs.map (fun c ↦ (c.map Node.shown).shown) = cs'.map (fun c ↦ (c.map Node.shown).shown) ∧
      cleanup.map Node.shown = cleanup'.map Node.shown ∧
      fault.map Node.shown = fault'.map Node.shown ∧ rest = rest' := by
  simp only [Shape.children, List.cons_append, List.forall_mem_cons, List.forall_mem_append,
    Option.mem_toList] at each
  obtain ⟨bodies, ⟨clauses, cleanups⟩, faults⟩ := each
  have noFinally (fault : Option Node) (rest : List Token) :
      heading? ((fault.map Node.tokens).toList.flatMap (headed "fault") ++ .mark ')' :: rest) ≠
        some "finally" := by
    cases fault <;> simp [headed, part, group, line, heading?]
  have noCatch (cleanup fault : Option Node) (rest : List Token) :
      heading? ((cleanup.map Node.tokens).toList.flatMap (headed "finally") ++
        ((fault.map Node.tokens).toList.flatMap (headed "fault") ++ .mark ')' :: rest)) ≠
        some "catch" := by
    cases cleanup <;> cases fault <;> simp [headed, part, group, line, heading?]
  have noFault (rest : List Token) : heading? (.mark ')' :: rest) ≠ some "fault" := by
    simp [heading?]
  obtain ⟨body, h⟩ := child_unique bodies h
  rw [List.flatMap_map, List.flatMap_map] at h
  obtain ⟨clauses, h⟩ := parts_unique (V := fun c ↦ (c.map Node.shown).shown) (fun _ _ ↦ rfl)
    (fun c member d rest rest' same ↦ clause_unique
      (fun m inside ↦ clauses m (List.mem_flatMap.2 ⟨c, member, inside⟩)) same)
    (noCatch _ _ _) (noCatch _ _ _) h
  obtain ⟨cleanup, h⟩ := headed_unique cleanups (noFinally _ _) (noFinally _ _) h
  obtain ⟨fault, h⟩ := headed_unique faults (noFault _) (noFault _) h
  exact ⟨body, clauses, cleanup, fault, (List.cons.inj h).2⟩

/-- The parts of a switch are known from their tokens. -/
theorem switch_unique {value value' : Node} {cs cs' : List (Case Node)}
    {otherwise otherwise' : Option Node}
    (each : ∀ m ∈ (Shape.switch value cs otherwise).children, m.Determined)
    (h : items false [value.tokens] ++ ((cs.map (Case.map Node.tokens)).flatMap Token.case ++
        ((otherwise.map Node.tokens).toList.flatMap (headed "default") ++ .mark ')' :: rest)) =
      items false [value'.tokens] ++ ((cs'.map (Case.map Node.tokens)).flatMap Token.case ++
        ((otherwise'.map Node.tokens).toList.flatMap (headed "default") ++ .mark ')' :: rest'))) :
    value.shown = value'.shown ∧
      cs.map (Case.map Node.shown) = cs'.map (Case.map Node.shown) ∧
      otherwise.map Node.shown = otherwise'.map Node.shown ∧ rest = rest' := by
  simp only [Shape.children, List.cons_append, List.forall_mem_cons, List.forall_mem_append,
    List.forall_mem_map, Option.mem_toList] at each
  obtain ⟨values, bodies, others⟩ := each
  have noCase (otherwise : Option Node) (rest : List Token) :
      heading? ((otherwise.map Node.tokens).toList.flatMap (headed "default") ++
        .mark ')' :: rest) ≠ some "case" := by
    cases otherwise <;> simp [headed, part, group, line, heading?]
  have noDefault (rest : List Token) : heading? (.mark ')' :: rest) ≠ some "default" := by
    simp [heading?]
  obtain ⟨value, h⟩ := child_unique values h
  rw [List.flatMap_map, List.flatMap_map] at h
  obtain ⟨cases', h⟩ := parts_unique (fun _ _ ↦ rfl)
    (fun c member d rest rest' same ↦ case_unique (bodies c member) same)
    (noCase _ _) (noCase _ _) h
  obtain ⟨otherwise, h⟩ := headed_unique others (noDefault _) (noDefault _) h
  exact ⟨value, cases', otherwise, (List.cons.inj h).2⟩

end

/-! ### Trees -/

namespace Node

/-- An operator stands on a line if its operand does. -/
theorem onLine_unary (i : NodeId) (op : UnaryOp) (o : Node) :
    onLine ⟨i, .unary op o⟩ = o.onLine := by
  rw [onLine, onLine, rendering_eq, Rendering.inline_ofLayer]
  cases inline : o.rendering.inline <;> simp [shape, Shape.map, inlineForm, inline]

/-- A step of the awaiter protocol stands on a line if its operand does. -/
theorem onLine_awaiter (i : NodeId) (step : AwaitStep) (o : Node) :
    onLine ⟨i, .awaiter step o⟩ = o.onLine := by
  rw [onLine, onLine, rendering_eq, Rendering.inline_ofLayer]
  cases inline : o.rendering.inline <;> simp [shape, Shape.map, inlineForm, inline]

end Node

/-! ### Layers of one form -/

/-- What is shown of a layer is known from any tokens that start with its own, in comparison with
another layer. -/
def Shape.Told (sh : Shape Node) (b : Bool) (sh' : Shape Node) (b' : Bool) : Prop :=
  ∀ rest rest', (sh.map Node.tokens).tokens b ++ rest = (sh'.map Node.tokens).tokens b' ++ rest' →
    (sh.map Node.shown).shown = (sh'.map Node.shown).shown ∧ rest = rest'

section

variable {b b' : Bool} {o o' : Node} {rest rest' : List Token}

/-- Blocks: names up to a bracket, then statements. -/
theorem told_block {declared declared' : List Variable} {ss ss' : List Node}
    (each : ∀ m ∈ ss, m.Determined) :
    Shape.Told (.block declared ss) b (.block declared' ss') b' := by
  intro rest rest' h
  have noBracket (ns : List Node) (rest : List Token) :
      ∀ t ∈ (items false (ns.map Node.tokens) ++ .mark ')' :: rest).head?, t ≠ .mark '[' := by
    cases ns <;> rintro _ ⟨⟩ <;> decide
  obtain ⟨-, h⟩ := group_cancel h
  rw [List.append_assoc, List.append_assoc] at h
  obtain ⟨names, h⟩ := names_unique (noBracket ss _) (noBracket ss' _) h
  obtain ⟨statements, rest⟩ := items_unique ss ss' each h
  exact ⟨by simp only [Shape.map, Shape.shown, names, statements], rest⟩

/-- Suspend points: words, then the operand. -/
theorem told_await {acquire acquire' : Option String} {result result' : Ty} (each : o.Determined) :
    Shape.Told (.await o acquire result) b (.await o' acquire' result') b' := by
  intro rest rest' h
  obtain ⟨-, h⟩ := group_cancel h
  simp only [List.append_assoc, await_tokens] at h
  obtain ⟨words, operand, rest⟩ := header_unique each h
  obtain ⟨rfl, rfl⟩ := awaitWords_injective words
  exact ⟨by simp only [Shape.map, Shape.shown, operand], rest⟩

/-- Regions: the body, then the parts that there are. -/
theorem told_region {body body' : Node} {cs cs' : List (Clause Node)}
    {cleanup cleanup' fault fault' : Option Node}
    (each : ∀ m ∈ (Shape.region body cs cleanup fault).children, m.Determined) :
    Shape.Told (.region body cs cleanup fault) b (.region body' cs' cleanup' fault') b' := by
  intro rest rest' h
  obtain ⟨-, h⟩ := group_cancel h
  simp only [List.append_assoc] at h
  obtain ⟨body, clauses, cleanup, fault, rest⟩ := region_unique each h
  refine ⟨?_, rest⟩
  simp only [Shape.map, Shape.shown, List.map_map, Function.comp_def, body, clauses, cleanup, fault]

/-- Loops: words, then the body. -/
theorem told_loop {breakLabel breakLabel' continueLabel continueLabel' : Option Label}
    (each : o.Determined) :
    Shape.Told (.loop o breakLabel continueLabel) b (.loop o' breakLabel' continueLabel') b' := by
  intro rest rest' h
  obtain ⟨-, h⟩ := group_cancel h
  simp only [List.append_assoc, loop_tokens] at h
  obtain ⟨words, body, rest⟩ := header_unique each h
  obtain ⟨rfl, rfl⟩ := loopWords_injective words
  exact ⟨by simp only [Shape.map, Shape.shown, body], rest⟩

/-- Switches: the value, then the cases. -/
theorem told_switch {value value' : Node} {cs cs' : List (Case Node)}
    {otherwise otherwise' : Option Node}
    (each : ∀ m ∈ (Shape.switch value cs otherwise).children, m.Determined) :
    Shape.Told (.switch value cs otherwise) b (.switch value' cs' otherwise') b' := by
  intro rest rest' h
  obtain ⟨-, h⟩ := group_cancel h
  simp only [List.append_assoc] at h
  obtain ⟨value, arms, otherwise, rest⟩ := switch_unique each h
  exact ⟨by simp only [Shape.map, Shape.shown, value, arms, otherwise], rest⟩

/-- Conditions: all parts in a row. -/
theorem told_branch {test test' yes yes' : Node} {no no' : Option Node}
    (each : ∀ m ∈ (Shape.branch test yes no).children, m.Determined) :
    Shape.Told (.branch test yes no) b (.branch test' yes' no') b' := by
  intro rest rest' h
  obtain ⟨-, h⟩ := group_cancel h
  rw [Option.toList_map, Option.toList_map] at h
  obtain ⟨parts, rest⟩ := items_unique (test :: yes :: no.toList) (test' :: yes' :: no'.toList)
    each h
  simp only [List.map_cons, List.cons.injEq, ← Option.toList_map] at parts
  obtain ⟨test, yes, no⟩ := parts
  exact ⟨by simp only [Shape.map, Shape.shown, test, yes, toList_injective no], rest⟩

theorem told_lock {guard guard' body body' : Node}
    (each : ∀ m ∈ (Shape.lock guard body).children, m.Determined) :
    Shape.Told (.lock guard body) b (.lock guard' body') b' := by
  intro rest rest' h
  obtain ⟨-, h⟩ := group_cancel h
  obtain ⟨parts, rest⟩ := items_unique [guard, body] [guard', body'] each h
  simp only [List.map_cons, List.cons.injEq] at parts
  exact ⟨by simp only [Shape.map, Shape.shown, parts], rest⟩

/-- A label is known from its text. -/
theorem target_unique {l l' : Label}
    (h : .word l.text :: .mark ')' :: rest = .word l'.text :: .mark ')' :: rest') :
    l = l' ∧ rest = rest' := by
  obtain ⟨text, last⟩ := List.cons.inj h
  exact ⟨Label.text_inj.1 (word.inj text), (List.cons.inj last).2⟩

theorem told_label {l l' : Label} : Shape.Told (.label l) b (.label l') b' := by
  intro rest rest' h
  obtain ⟨rfl, rest⟩ := target_unique (group_cancel h).2
  exact ⟨rfl, rest⟩

theorem told_goto {l l' : Label} : Shape.Told (.goto l) b (.goto l') b' := by
  intro rest rest' h
  obtain ⟨rfl, rest⟩ := target_unique (group_cancel h).2
  exact ⟨rfl, rest⟩

/-- Returns: the value, if there is one. -/
theorem told_ret {value value' : Option Node} (each : ∀ m ∈ value.toList, m.Determined) :
    Shape.Told (.ret value) b (.ret value') b' := by
  intro rest rest' h
  obtain ⟨-, h⟩ := group_cancel h
  rw [Option.toList_map, Option.toList_map] at h
  obtain ⟨value, rest⟩ := items_unique value.toList value'.toList each h
  rw [← Option.toList_map, ← Option.toList_map] at value
  exact ⟨by simp only [Shape.map, Shape.shown, toList_injective value], rest⟩

/-- Throws and bare rethrows start with different words. -/
theorem told_raise {value value' : Option Node} (each : ∀ m ∈ value.toList, m.Determined) :
    Shape.Told (.raise value) b (.raise value') b' := by
  intro rest rest' h
  cases value with
  | none =>
    cases value' with
    | none => exact ⟨rfl, (List.cons.inj (group_cancel h).2).2⟩
    | some value' => exact absurd (word.inj (group_cancel h).1) (by decide)
  | some value =>
    cases value' with
    | none => exact absurd (word.inj (group_cancel h).1) (by decide)
    | some value' =>
      obtain ⟨value, rest⟩ := child_unique (each value List.mem_cons_self) (group_cancel h).2
      exact ⟨by simp only [Shape.map, Shape.shown, Option.map_some, value], (List.cons.inj rest).2⟩

theorem told_assign {v v' : Variable} (each : o.Determined) :
    Shape.Told (.assign v o) b (.assign v' o') b' := by
  intro rest rest' h
  obtain ⟨-, h⟩ := group_cancel h
  obtain ⟨text, h⟩ := List.cons.inj h
  obtain ⟨value, last⟩ := child_unique each h
  exact ⟨by simp only [Shape.map, Shape.shown, Variable.shown_of_text (word.inj text), value],
    (List.cons.inj last).2⟩

/-- Operators with two operands: the sign, then the operands. -/
theorem told_binary {op op' : BinaryOp} {left left' right right' : Node}
    (each : ∀ m ∈ [left, right], m.Determined) :
    Shape.Told (.binary op left right) b (.binary op' left' right') b' := by
  intro rest rest' h
  obtain ⟨sameOp, content⟩ := binary_cancel h
  subst sameOp
  obtain ⟨operands, rest⟩ := items_unique [left, right] [left', right'] each content
  simp only [List.map_cons, List.cons.injEq] at operands
  exact ⟨by simp only [Shape.map, Shape.shown, operands], rest⟩

/-- An operator with one operand is known where it stands on the line of the operand. Elsewhere the
other word stands for it. -/
theorem operator_unique {α : Type} {sign : α → String} (injective : Function.Injective sign)
    {op op' : α} {other : String} (each : o.Determined)
    (h : group (.word (if o.onLine then sign op else other) :: items o.onLine [o.tokens]) ++ rest =
      group (.word (if o'.onLine then sign op' else other) :: items o'.onLine [o'.tokens]) ++
        rest') :
    o.shown = o'.shown ∧ (o'.onLine = true → op = op') ∧ rest = rest' := by
  obtain ⟨head, h⟩ := group_cancel h
  obtain ⟨operand, last⟩ := child_unique each h
  have together : o.onLine = o'.onLine := by rw [← Node.onLine_shown, operand, Node.onLine_shown]
  refine ⟨operand, fun here ↦ ?_, (List.cons.inj last).2⟩
  rw [together, here, if_pos rfl, if_pos rfl] at head
  exact injective (word.inj head)

/-- Operators with one operand: the sign where it is shown, then the operand. -/
theorem told_unary {op op' : UnaryOp} (each : o.Determined) :
    Shape.Told (.unary op o) o.onLine (.unary op' o') o'.onLine := by
  intro rest rest' h
  obtain ⟨operand, same, rest⟩ := operator_unique (fun _ _ ↦ UnaryOp.sign_injective) each h
  refine ⟨?_, rest⟩
  simp only [Shape.map, Shape.shown, operand, Node.onLine_shown]
  cases here : o'.onLine with
  | false => rfl
  | true => rw [same here]

/-- Steps of the awaiter protocol: the sign where it is shown, then the operand. -/
theorem told_awaiter {step step' : AwaitStep} (each : o.Determined) :
    Shape.Told (.awaiter step o) o.onLine (.awaiter step' o') o'.onLine := by
  intro rest rest' h
  obtain ⟨operand, same, rest⟩ := operator_unique (fun _ _ ↦ AwaitStep.sign_injective) each h
  refine ⟨?_, rest⟩
  simp only [Shape.map, Shape.shown, operand, Node.onLine_shown]
  cases here : o'.onLine with
  | false => rfl
  | true => rw [same here]

/-- Calls: the name of the operation, then its arguments. -/
theorem told_call {f f' : String} {args args' : List Node} (each : ∀ m ∈ args, m.Determined) :
    Shape.Told (.call f args) b (.call f' args') b' := by
  intro rest rest' h
  obtain ⟨-, h⟩ := group_cancel h
  obtain ⟨text, h⟩ := List.cons.inj h
  obtain ⟨values, rest⟩ := items_unique args args' each h
  exact ⟨by simp only [Shape.map, Shape.shown, word.inj text, values], rest⟩

theorem told_var {v v' : Variable} : Shape.Told (.var v) b (.var v') b' := by
  intro rest rest' h
  obtain ⟨text, rest⟩ := List.cons.inj h
  exact ⟨by simp only [Shape.map, Shape.shown, Variable.shown_of_text (word.inj text)], rest⟩

theorem told_const {value value' : Literal} : Shape.Told (.const value) b (.const value') b' := by
  intro rest rest' h
  obtain ⟨rfl, rest⟩ := Literal.tokens_injective h
  exact ⟨rfl, rest⟩

theorem told_defaultOf {ty ty' : Ty} : Shape.Told (.defaultOf ty) b (.defaultOf ty') b' := by
  intro rest rest' h
  obtain ⟨-, h⟩ := group_cancel h
  obtain ⟨name, last⟩ := List.cons.inj h
  rw [Ty.name_injective (word.inj name)]
  exact ⟨rfl, (List.cons.inj last).2⟩

end

namespace Node

/-- Nodes of one form whose children are determined tell what is shown of them. -/
theorem told_of_kind {m n : Node} (each : ∀ c ∈ m.children, c.Determined)
    (kinds : m.kind = n.kind) : m.shape.Told m.onLine n.shape n.onLine := by
  obtain ⟨i, sh⟩ := m
  obtain ⟨j, sh'⟩ := n
  have only {o : Node} {os : List Node} (each : ∀ c ∈ o :: os, c.Determined) : o.Determined :=
    each o List.mem_cons_self
  cases sh with
  | block declared ss => cases sh' with | block => exact told_block each | _ => cases kinds
  | await o => cases sh' with | await => exact told_await (only each) | _ => cases kinds
  | region => cases sh' with | region => exact told_region each | _ => cases kinds
  | loop body => cases sh' with | loop => exact told_loop (only each) | _ => cases kinds
  | switch => cases sh' with | switch => exact told_switch each | _ => cases kinds
  | branch => cases sh' with | branch => exact told_branch each | _ => cases kinds
  | lock => cases sh' with | lock => exact told_lock each | _ => cases kinds
  | label => cases sh' with | label => exact told_label | _ => cases kinds
  | goto => cases sh' with | goto => exact told_goto | _ => cases kinds
  | ret => cases sh' with | ret => exact told_ret each | _ => cases kinds
  | raise => cases sh' with | raise => exact told_raise each | _ => cases kinds
  | assign v o => cases sh' with | assign => exact told_assign (only each) | _ => cases kinds
  | binary => cases sh' with | binary => exact told_binary each | _ => cases kinds
  | unary op o =>
    cases sh' with
    | unary op' o' =>
      rw [onLine_unary, onLine_unary]
      exact told_unary (only each)
    | _ => cases kinds
  | awaiter step o =>
    cases sh' with
    | awaiter step' o' =>
      rw [onLine_awaiter, onLine_awaiter]
      exact told_awaiter (only each)
    | _ => cases kinds
  | call => cases sh' with | call => exact told_call each | _ => cases kinds
  | var => cases sh' with | var => exact told_var | _ => cases kinds
  | const => cases sh' with | const => exact told_const | _ => cases kinds
  | defaultOf => cases sh' with | defaultOf => exact told_defaultOf | _ => cases kinds

/-- **What is shown of a tree is known from the tokens of its dump**, and from any tokens that start
with these. -/
theorem determined (m : Node) : m.Determined := by
  induction m using Node.induction with
  | step m ih =>
    intro n rest rest' h
    have kinds : m.kind = n.kind := by
      have form := m.kind?_tokens rest
      rw [h, n.kind?_tokens rest'] at form
      exact (Option.some.inj form).symm
    rw [tokens_eq, tokens_eq n] at h
    obtain ⟨shown, rest⟩ := told_of_kind ih kinds rest rest' h
    rw [shown_eq, shown_eq n]
    exact ⟨congrArg (Node.mk 0) shown, rest⟩

/-- **A dump determines what it shows of a tree**, and nothing else: two trees whose names are words
have the same dump if and only if they are one tree, but for the numbers of nodes, the types of
variables, and the operators with one operand and steps of the awaiter protocol that do not stand on
the line of their operands. -/
theorem dump_eq_iff {m n : Node} (named : m.PlainlyNamed) (named' : n.PlainlyNamed) :
    m.dump = n.dump ↔ m.shown = n.shown := by
  constructor
  · intro same
    have spells := dump_spells named
    rw [same] at spells
    have tokens : m.tokens ++ [] = n.tokens ++ [] := by
      rw [spells.unique (dump_spells named')]
    exact (m.determined n [] [] tokens).1
  · intro same
    rw [← dump_shown m, same, dump_shown]

/-- Two operators that no dump tells apart. -/
example : dump ⟨1, .unary .minus ⟨0, .block [] []⟩⟩ = dump ⟨1, .unary .not ⟨0, .block [] []⟩⟩ :=
  rfl

/-! ### Legible trees -/

/-- Wherever an operator with one operand or a step of the awaiter protocol stands in a tree, its
operand stands on the same line. -/
def Legible (n : Node) : Prop :=
  ∀ m ∈ n.walk, m.kind = .unary ∨ m.kind = .awaiter → ∀ o ∈ m.children, o.onLine = true

/-- Parts of a legible tree are legible. -/
theorem Legible.child {n c : Node} (h : n.Legible) (child : c ∈ n.children) : c.Legible :=
  fun m inside ↦ h m (mem_walk_of_mem_children inside child)

theorem alikeClauses_shown {α : Type} (ts : List (Clause (α → Bool))) (cs : List (Clause α)) :
    Shape.alikeClauses (ts.map Clause.shown) cs = Shape.alikeClauses ts cs := by
  have binder (t : Clause (α → Bool)) :
      t.shown.binder.map Variable.id = t.binder.map Variable.id := by
    rw [Clause.shown, Option.map_map]
    rfl
  induction ts generalizing cs with
  | nil => rfl
  | cons t ts ih =>
    cases cs with
    | nil => rfl
    | cons c cs =>
      rw [List.map_cons, Shape.alikeClauses, Shape.alikeClauses, binder, ih]
      rfl

/-- What is not shown of a legible layer makes no difference to structural equality. -/
theorem alike_shown_layer {sh sh' : Shape Node}
    (legible : sh.kind = .unary ∨ sh.kind = .awaiter → ∀ o ∈ sh.children, o.onLine = true) :
    (sh.shown.map alike).alike sh' = (sh.map alike).alike sh' := by
  cases sh with
  | block declared ss =>
    cases sh' <;> simp [Shape.shown, Shape.map, Shape.alike, Shape.sameVariables, Variable.shown,
      Function.comp_def]
  | region body cs cleanup fault =>
    have tests : (cs.map Clause.shown).map (Clause.map alike) =
        (cs.map (Clause.map alike)).map Clause.shown := by
      rw [List.map_map, List.map_map]
      rfl
    cases sh' with
    | region => simp only [Shape.shown, Shape.map, Shape.alike, tests, alikeClauses_shown]
    | _ => rfl
  | unary op o => simp [Shape.shown, legible (.inl rfl) o List.mem_cons_self]
  | awaiter step o => simp [Shape.shown, legible (.inr rfl) o List.mem_cons_self]
  | assign v o => cases sh' <;> rfl
  | var v => cases sh' <;> rfl
  | _ => rfl

/-- A legible tree is structurally equal to the same trees as what is shown of it. -/
theorem alike_shown {m : Node} (legible : m.Legible) (n : Node) : m.shown.alike n = m.alike n := by
  induction m using Node.induction generalizing n with
  | step m ih =>
    have layer : (m.shape.map shown).kind = .unary ∨ (m.shape.map shown).kind = .awaiter →
        ∀ o ∈ (m.shape.map shown).children, o.onLine = true := by
      rw [Shape.kind_map, Shape.children_map]
      intro form
      refine List.forall_mem_map.2 fun o child ↦ ?_
      rw [onLine_shown]
      exact legible m (mem_walk_self m) form o child
    rw [alike_eq, alike_eq m, shown_eq]
    show ((m.shape.map shown).shown.map alike).alike n.shape = _
    rw [alike_shown_layer layer, Shape.map_map]
    refine congrArg (Shape.alike · n.shape) (Shape.map_congr fun c child ↦ ?_)
    funext k
    exact ih c child (legible.child child) k

/-- **Legible trees with the same dump are structurally equal.** -/
theorem alike_of_dump_eq {m n : Node} (named : m.PlainlyNamed) (named' : n.PlainlyNamed)
    (legible : m.Legible) (legible' : n.Legible) (same : m.dump = n.dump) : m.alike n = true := by
  rw [← alike_shown legible, (dump_eq_iff named named').1 same, alike_shown legible']
  exact alike_refl n

end Node

end Suspension
