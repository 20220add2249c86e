import Suspension.Proofs.Dumps.Tokens
import Suspension.Proofs.Labels
import Suspension.Tree.Dump

/-!
# What a dump shows

The tokens of a dump are read off the tree, layer by layer (`Shape.tokens`), with a token for each
line end and none for blanks: whether a form stands on one line shows in them, how far it is
indented does not. Where all names are words, the dump falls into just these tokens
(`Node.dump_spells`).
-/

namespace Suspension

open Rendering

/-! ### Renderings -/

/-- The two forms of a tree in a dump. -/
def Node.rendering : Node → Rendering :=
  fold fun _ layer ↦ ofLayer layer

/-- Whether a tree stands on one line of a dump. -/
def Node.onLine (n : Node) : Bool :=
  n.rendering.inline.isSome

theorem Node.rendering_eq (n : Node) : n.rendering = ofLayer (n.shape.map rendering) :=
  fold_eq _ n

/-- A layer fits on a line if it has a form for one line. -/
theorem Rendering.inline_ofLayer (layer : Shape Rendering) :
    (ofLayer layer).inline = inlineForm (layer.map Rendering.inline) := by
  unfold ofLayer
  split
  · rename_i h
    exact h.symm
  · rename_i h
    exact h.symm

/-! ### Tokens -/

namespace Token

def line : Token :=
  .mark '\n'

/-- Tokens between parentheses. -/
def group (ts : List Token) : List Token :=
  .mark '(' :: (ts ++ [.mark ')'])

/-- What stands behind an operator, on the same line or on one of its own. -/
def item (onLine : Bool) (ts : List Token) : List Token :=
  if onLine then ts else line :: ts

/-- Children, each on the same line or on one of its own. -/
def items (onLine : Bool) (tss : List (List Token)) : List Token :=
  tss.flatMap (item onLine)

/-- A part of a node under a heading. -/
def part (heading content : List Token) : List Token :=
  line :: group (heading ++ content)

/-- A child under a heading of its own. -/
def headed (heading : String) (ts : List Token) : List Token :=
  part [.word heading] (items false [ts])

def clause (c : Clause (List Token)) : List Token :=
  part (.word "catch" :: c.binder.toList.map fun v ↦ .word v.text)
    (c.filter.toList.flatMap (headed "when") ++ items false [c.body])

def case (c : Case (List Token)) : List Token :=
  part (.word "case" :: c.tests.map fun t ↦ .word (toString t.toInt)) (items false [c.body])

/-- The variables of a block. -/
def names (declared : List Variable) : List Token :=
  if declared.isEmpty then []
  else .mark '[' :: (declared.map (fun v ↦ .word v.text) ++ [.mark ']'])

/-- A label behind the word for what it is to a loop. -/
def named (word : String) (l : Option Label) : List Token :=
  l.toList.map fun l ↦ .word (word ++ "=" ++ l.text)

end Token

open Token

/-- The tokens of a constant. -/
def Literal.tokens : Literal → List Token
  | .unit => group []
  | .str s => [.quoted s]
  | value => [.word value.text]

/-- The tokens of a layer, from those of its children. -/
def Shape.tokens (onLine : Bool) : Shape (List Token) → List Token
  | .block declared statements =>
    group (.word "block" :: (names declared ++ items false statements))
  | .await operand acquire result =>
    group (.word "await" :: .word result.name ::
      (acquire.toList.flatMap (fun name ↦ [.word "via", .word name]) ++ items false [operand]))
  | .awaiter step operand =>
    group (.word (if onLine then step.sign else "awaiter") :: items onLine [operand])
  | .region body clauses cleanup fault =>
    group (.word "try" :: (items false [body] ++ clauses.flatMap clause ++
      cleanup.toList.flatMap (headed "finally") ++ fault.toList.flatMap (headed "fault")))
  | .loop body breakLabel continueLabel =>
    group (.word "loop" ::
      (named "break" breakLabel ++ named "continue" continueLabel ++ items false [body]))
  | .label target => group [.word "label", .word target.text]
  | .goto target => group [.word "goto", .word target.text]
  | .switch value cases otherwise =>
    group (.word "switch" :: (items false [value] ++ cases.flatMap case ++
      otherwise.toList.flatMap (headed "default")))
  | .branch test yes no => group (.word "if" :: items false (test :: yes :: no.toList))
  | .lock guard body => group (.word "lock" :: items false [guard, body])
  | .ret value => group (.word "return" :: items onLine value.toList)
  | .raise none => group [.word "rethrow"]
  | .raise (some value) => group (.word "throw" :: items onLine [value])
  | .assign target value => group (.word "assign" :: .word target.text :: items onLine [value])
  | .binary op left right =>
    group ((if onLine then [.word op.sign] else [.word "binary", .word op.sign]) ++
      items onLine [left, right])
  | .unary op operand =>
    group (.word (if onLine then op.sign else "unary") :: items onLine [operand])
  | .call callee args => group (.word "call" :: .word callee :: items onLine args)
  | .var v => [.word v.text]
  | .const value => value.tokens
  | .defaultOf ty => group [.word "default", .word ty.name]

/-- The tokens of the dump of a tree. -/
def Node.tokens : Node → List Token :=
  fold fun n layer ↦ layer.tokens n.onLine

theorem Node.tokens_eq (n : Node) : n.tokens = (n.shape.map tokens).tokens n.onLine :=
  fold_eq _ n

/-- The names that a dump shows of a layer. -/
def Shape.shownNames {α : Type} : Shape α → List String
  | .block declared _ => declared.map Variable.name
  | .await _ acquire _ => acquire.toList
  | .region _ clauses _ _ => clauses.flatMap fun c ↦ c.binder.toList.map Variable.name
  | .loop _ breakLabel continueLabel =>
    breakLabel.toList.map Label.name ++ continueLabel.toList.map Label.name
  | .label target | .goto target => [target.name]
  | .assign v _ | .var v => [v.name]
  | .call callee _ => [callee]
  | _ => []

/-- All names that a dump shows are words. -/
def Node.PlainlyNamed (n : Node) : Prop :=
  ∀ m ∈ n.walk, ∀ name ∈ m.shape.shownNames, IsWord name

/-! ### Words -/

/-- A word with plain characters behind it is a word. -/
theorem IsWord.append {text rest : String} (h : IsWord text)
    (plain : ∀ c ∈ rest.toList, ¬ IsSeparator c) : IsWord (text ++ rest) where
  ne_nil := by simp [h.ne_nil]
  plain := by
    rw [String.toList_append]
    exact List.forall_mem_append.2 ⟨h.plain, plain⟩

/-- Digits are no separators. -/
theorem not_separator_of_isDigit {c : Char} (h : c.isDigit = true) : ¬ IsSeparator c := by
  rintro (rfl | rfl | inside)
  · exact absurd h (by decide)
  · exact absurd h (by decide)
  · simp only [marks, List.mem_cons, List.not_mem_nil, or_false] at inside
    rcases inside with rfl | rfl | rfl | rfl | rfl <;> exact absurd h (by decide)

theorem toList_repr (n : Nat) : n.repr.toList = Nat.toDigits 10 n := by
  simp [Nat.repr]

/-- Numbers are words. -/
theorem isWord_repr (n : Nat) : IsWord n.repr where
  ne_nil := by
    rw [toList_repr]
    exact Nat.toDigits_ne_nil
  plain := by
    rw [toList_repr]
    exact fun c member ↦
      not_separator_of_isDigit (Nat.isDigit_of_mem_toDigits (by decide) (by decide) member)

/-- Integers are words. -/
theorem isWord_toString (i : Int) : IsWord (toString i) := by
  rw [Int.toString_eq_repr]
  cases i with
  | ofNat n => exact isWord_repr n
  | negSucc n =>
    have minus : IsWord "-" := ⟨by simp, by simp [IsSeparator, marks]⟩
    exact minus.append (isWord_repr _).plain

/-- The text of a symbol is a word if its name is. -/
theorem isWord_symbolText {name : String} (h : IsWord name) (id : SymbolId) :
    IsWord (symbolText name id) := by
  have sharp : ∀ c ∈ "#".toList, ¬ IsSeparator c := by simp [IsSeparator, marks]
  exact (h.append sharp).append (isWord_repr _).plain

/-! ### What forms contribute -/

/-- Both forms of a node contribute the same tokens. -/
structure Rendering.Shows (r : Rendering) (ts : List Token) : Prop where
  inline : ∀ text ∈ r.inline, Writes text.toList ts
  lines : ∀ column, Writes (r.lines column).toList ts

theorem Follows.close : Follows [')'] [.mark ')'] :=
  .mark (by decide) .nil

/-- A word and what follows it, between parentheses. -/
theorem Writes.of_group {head : String} {tail : List Char} {ts : List Token} (isWord : IsWord head)
    (h : Follows tail ts) :
    Writes ('(' :: (head.toList ++ (tail ++ [')']))) (group (.word head :: ts)) :=
  .mark (by decide) ((word isWord).append (h.append .close).writes (h.append .close).delimited)

/-- Words are written with blanks between them. -/
theorem toList_words (head : String) (words : List String) :
    (" ".intercalate (head :: words)).toList =
      head.toList ++ words.flatMap fun w ↦ ' ' :: w.toList := by
  induction words generalizing head with
  | nil => simp
  | cons w words ih =>
    have rest := ih w
    simp only [String.toList_intercalate, String.reduceToList, List.map_cons] at rest
    simp [rest]

/-- A form is written in parentheses. -/
theorem toList_form (head : String) (words : List String) :
    (form (head :: words)).toList =
      '(' :: (head.toList ++ (words.flatMap (fun w ↦ ' ' :: w.toList) ++ [')'])) := by
  rw [form, String.toList_append, String.toList_append, toList_words]
  simp

section

variable {α : Type} {r : α → Rendering} {T : α → List Token} {as : List α}

/-- A form on one line. -/
theorem Writes.of_form {head : String} {words : List String} {tss : List (List Token)}
    (isWord : IsWord head) (each : List.Forall₂ (fun w ts ↦ Writes w.toList ts) words tss) :
    Writes (form (head :: words)).toList (group (.word head :: tss.flatten)) := by
  rw [toList_form]
  refine .of_group isWord ?_
  induction each with
  | nil => exact .nil
  | cons first _ rest => exact (Follows.blank first).append rest

/-- Indentation changes no tokens. -/
theorem Writes.indented {text : String} {ts : List Token} (h : Writes text.toList ts) (n : Nat) :
    Writes (indent n ++ text).toList ts := by
  rw [String.toList_append, indent, String.toList_ofList]
  exact h.blanks n

/-- Children may follow, one on each line. -/
theorem Follows.rows (each : ∀ a ∈ as, (r a).Shows (T a)) (column : Nat) :
    Follows (below column (as.map r)).toList (items false (as.map T)) := by
  have rows : (below column (as.map r)).toList =
      as.flatMap fun a ↦ '\n' :: ((r a).lines column).toList := by
    simp [below, String.toList_join, List.flatMap_map]
  rw [rows, items, List.flatMap_map]
  exact .flatMap fun a member ↦ .mark (by decide) ((each a member).lines column)

/-- A part with a heading may follow. -/
theorem Follows.of_part {head heading content : String} {rest : List Char} {hs ts : List Token}
    (isWord : IsWord head) (starts : heading.toList = head.toList ++ rest) (h : Follows rest hs)
    (h' : Follows content.toList ts) (column : Nat) :
    Follows (part column heading content).toList (part (.word head :: hs) ts) := by
  have text : (Rendering.part column heading content).toList =
      '\n' :: (List.replicate column ' ' ++
        '(' :: (head.toList ++ ((rest ++ content.toList) ++ [')']))) := by
    simp [Rendering.part, Rendering.indent, starts]
  rw [text]
  exact .mark (by decide) ((Writes.of_group isWord (h.append h')).blanks column)

/-- A part with a heading may follow, if there is one. -/
theorem Follows.of_headed {heading : String} (isWord : IsWord heading) {o : Option α}
    (each : ∀ a ∈ o, (r a).Shows (T a)) (column : Nat) :
    Follows (headed column heading (o.map r)).toList
      ((o.map T).toList.flatMap (headed heading)) := by
  cases o with
  | none => exact .nil
  | some a =>
    have child := Follows.rows (List.forall_mem_singleton.2 (each a rfl)) (column + 2)
    have whole := Follows.of_part isWord (List.append_nil _).symm .nil child column
    rwa [← List.append_nil (Token.part _ _)] at whole

/-! ### Layers -/

/-- The words that dumps use themselves. -/
def keywords : List String :=
  ["block", "await", "via", "awaiter", "acquire", "is-completed", "get-result", "try", "catch",
    "when", "finally", "fault", "loop", "break", "continue", "label", "goto", "switch", "case",
    "default", "if", "lock", "return", "throw", "rethrow", "assign", "binary", "unary", "neg",
    "not", "call", "null", "true", "false"]

/-- All keywords are words. -/
theorem isWord_keyword : ∀ word ∈ keywords, IsWord word := fun word member ↦ by
  have words : ∀ word ∈ keywords, word.toList ≠ [] ∧ ∀ c ∈ word.toList, ¬ IsSeparator c := by
    simp [keywords, IsSeparator, marks]
  exact ⟨(words word member).1, (words word member).2⟩

/-- The signs of operators are words. -/
theorem isWord_sign (op : BinaryOp) : IsWord op.sign := by
  cases op <;> constructor <;> simp [BinaryOp.sign, IsSeparator, marks]

/-- The names of types are words. -/
theorem isWord_type (ty : Ty) : IsWord ty.name := by
  cases ty <;> constructor <;> simp [Ty.name, IsSeparator, marks]

/-- A constant is written as its tokens. -/
theorem Literal.writes (value : Literal) : Writes value.text.toList value.tokens := by
  cases value with
  | unit => exact .mark (by decide) (.mark (by decide) .nil)
  | null => exact .word (isWord_keyword _ (by decide))
  | bool b =>
    cases b with
    | true => exact .word (isWord_keyword _ (by decide))
    | false => exact .word (isWord_keyword _ (by decide))
  | int i => exact .word (isWord_toString _)
  | str s => exact .quoted s

/-- Arguments all of which stand on one line. -/
theorem Writes.of_mapM {words : List String} (each : ∀ a ∈ as, (r a).Shows (T a))
    (h : (as.map fun a ↦ (r a).inline).mapM id = some words) :
    List.Forall₂ (fun w ts ↦ Writes w.toList ts) words (as.map T) := by
  induction as generalizing words with
  | nil =>
    obtain rfl := Option.some.inj h
    exact .nil
  | cons a as ih =>
    obtain ⟨here, others⟩ := List.forall_mem_cons.1 each
    rw [List.map_cons, List.mapM_cons] at h
    obtain ⟨w, first, h⟩ := Option.bind_eq_some_iff.1 h
    obtain ⟨words, rest, h⟩ := Option.bind_eq_some_iff.1 h
    obtain rfl := Option.some.inj h
    exact .cons (here.inline w first) (ih others rest)

/-- A layer on one line contributes its tokens. -/
theorem Shape.inline_writes {sh : Shape α} (named : ∀ name ∈ sh.shownNames, IsWord name)
    (each : ∀ a ∈ sh.children, (r a).Shows (T a)) {text : String}
    (inline : inlineForm (sh.map fun a ↦ (r a).inline) = some text) :
    Writes text.toList ((sh.map T).tokens true) := by
  have child {a : α} (inside : a ∈ sh.children) {w : String} (here : (r a).inline = some w) :
      Writes w.toList (T a) := (each a inside).inline w here
  have only {a : α} (children : sh.children = [a]) {w : String} (here : (r a).inline = some w) :
      Writes w.toList (T a) := child (children ▸ List.mem_cons_self) here
  have word {w : String} (isWord : IsWord w) : Writes w.toList [.word w] := .word isWord
  have symbol {name : String} {id : SymbolId} (shown : name ∈ sh.shownNames) :
      IsWord (symbolText name id) := isWord_symbolText (named name shown) id
  -- A layer stands on one line only if each of its children does.
  cases sh with
  | var v =>
    obtain rfl := Option.some.inj inline
    exact word (symbol List.mem_cons_self)
  | const value =>
    obtain rfl := Option.some.inj inline
    exact value.writes
  | defaultOf ty =>
    obtain rfl := Option.some.inj inline
    exact .of_form (isWord_keyword _ (by decide)) (.cons (word (isWord_type ty)) .nil)
  | label l =>
    obtain rfl := Option.some.inj inline
    exact .of_form (isWord_keyword _ (by decide)) (.cons (word (symbol List.mem_cons_self)) .nil)
  | goto l =>
    obtain rfl := Option.some.inj inline
    exact .of_form (isWord_keyword _ (by decide)) (.cons (word (symbol List.mem_cons_self)) .nil)
  | binary op left right =>
    obtain ⟨l, left, h⟩ := Option.bind_eq_some_iff.1 inline
    obtain ⟨r', right, h⟩ := Option.bind_eq_some_iff.1 h
    obtain rfl := Option.some.inj h
    exact .of_form (isWord_sign op) (.cons (child (by simp [children]) left)
      (.cons (child (by simp [children]) right) .nil))
  | unary op operand =>
    obtain ⟨w, operand, h⟩ := Option.bind_eq_some_iff.1 inline
    obtain rfl := Option.some.inj h
    exact .of_form (isWord_keyword _ (by cases op <;> decide)) (.cons (only rfl operand) .nil)
  | assign v value =>
    obtain ⟨w, value, h⟩ := Option.bind_eq_some_iff.1 inline
    obtain rfl := Option.some.inj h
    exact .of_form (isWord_keyword _ (by decide))
      (.cons (word (symbol List.mem_cons_self)) (.cons (only rfl value) .nil))
  | call callee args =>
    obtain ⟨words, values, h⟩ := Option.bind_eq_some_iff.1 inline
    obtain rfl := Option.some.inj h
    have line := Writes.of_form (isWord_keyword "call" (by decide))
      (.cons (word (named _ List.mem_cons_self)) (Writes.of_mapM each values))
    have together : items true (args.map T) = (args.map T).flatten := List.flatMap_id
    rw [map, tokens, together]
    exact line
  | awaiter step operand =>
    obtain ⟨w, operand, h⟩ := Option.bind_eq_some_iff.1 inline
    obtain rfl := Option.some.inj h
    exact .of_form (isWord_keyword _ (by cases step <;> decide)) (.cons (only rfl operand) .nil)
  | ret value =>
    cases value with
    | none =>
      have text : "(return)" = form ["return"] := by simp [form]
      obtain rfl := Option.some.inj inline
      rw [text]
      exact .of_form (isWord_keyword _ (by decide)) .nil
    | some value =>
      obtain ⟨w, value, h⟩ := Option.bind_eq_some_iff.1 inline
      obtain rfl := Option.some.inj h
      exact .of_form (isWord_keyword _ (by decide)) (.cons (only rfl value) .nil)
  | raise value =>
    cases value with
    | none =>
      have text : "(rethrow)" = form ["rethrow"] := by simp [form]
      obtain rfl := Option.some.inj inline
      rw [text]
      exact .of_form (isWord_keyword _ (by decide)) .nil
    | some value =>
      obtain ⟨w, value, h⟩ := Option.bind_eq_some_iff.1 inline
      obtain rfl := Option.some.inj h
      exact .of_form (isWord_keyword _ (by decide)) (.cons (only rfl value) .nil)
  | _ => cases inline

/-! ### Layers on several lines -/

/-- What stands between the parentheses of a form. -/
theorem Writes.of_content (head : String) {content : String} {tail : List Char} {ts : List Token}
    (known : head ∈ keywords) (text : content.toList = head.toList ++ tail) (h : Follows tail ts) :
    Writes ('(' :: (content.toList ++ [')'])) (group (.word head :: ts)) := by
  rw [text, List.append_assoc]
  exact .of_group (isWord_keyword head known) h

theorem Follows.word {text : String} (isWord : IsWord text) :
    Follows (' ' :: text.toList) [.word text] :=
  .blank (.word isWord)

/-- Words may follow, with blanks in front of them. -/
theorem Follows.of_words {texts : List String} (each : ∀ w ∈ texts, IsWord w) :
    Follows (texts.flatMap fun w ↦ ' ' :: w.toList) (texts.map .word) := by
  rw [List.map_eq_flatMap]
  exact .flatMap fun w member ↦ .word (each w member)

/-- The names of variables may follow, in brackets. -/
theorem Follows.of_names {declared : List Variable} (named : ∀ v ∈ declared, IsWord v.name) :
    Follows (if declared.isEmpty then ""
      else " [" ++ " ".intercalate (declared.map Variable.text) ++ "]").toList
      (names declared) := by
  cases declared with
  | nil => exact .nil
  | cons v vs =>
    obtain ⟨first, others⟩ := List.forall_mem_cons.1 named
    have rest : Follows ((vs.map Variable.text).flatMap fun w ↦ ' ' :: w.toList)
        ((vs.map Variable.text).map .word) :=
      .of_words (List.forall_mem_map.2 fun w member ↦ isWord_symbolText (others w member) _)
    have text : (" [" ++ " ".intercalate ((v :: vs).map Variable.text) ++ "]").toList =
        ' ' :: '[' :: (v.text.toList ++
          ((vs.map Variable.text).flatMap (fun w ↦ ' ' :: w.toList) ++ [']'])) := by
      rw [String.toList_append, String.toList_append, List.map_cons, toList_words]
      simp
    have close : Follows [']'] [.mark ']'] := .mark (by decide) .nil
    have inner := (Writes.word (isWord_symbolText first v.id)).append
      (rest.append close).writes (rest.append close).delimited
    rw [List.map_map] at inner
    exact text ▸ .blank (.mark (by decide) inner)

/-- A label may follow, behind the word for what it is for. -/
theorem Follows.of_named {word : String} (isWord : IsWord word) {l : Option Label}
    (named : ∀ name ∈ l.toList.map Label.name, IsWord name) :
    Follows (l.elim "" fun l ↦ " " ++ word ++ "=" ++ l.text).toList (Token.named word l) := by
  cases l with
  | none => exact .nil
  | some l =>
    have equals : ∀ c ∈ "=".toList, ¬ IsSeparator c := by simp [IsSeparator, marks]
    have label := isWord_symbolText (named l.name List.mem_cons_self) l.id
    have text : (" " ++ word ++ "=" ++ l.text).toList = ' ' :: (word ++ "=" ++ l.text).toList := by
      simp
    exact text ▸ .word ((isWord.append equals).append label.plain)

/-- The operation that yields the handle of a suspend point. -/
theorem Follows.of_acquire {acquire : Option String}
    (named : ∀ name ∈ acquire.toList, IsWord name) :
    Follows (acquire.elim "" fun name ↦ " via " ++ name).toList
      (acquire.toList.flatMap fun name ↦ [.word "via", .word name]) := by
  cases acquire with
  | none => exact .nil
  | some name =>
    have text : (" via " ++ name).toList = (' ' :: "via".toList) ++ (' ' :: name.toList) := by simp
    exact text ▸ (Follows.word (isWord_keyword _ (by decide))).append
      (.word (named name List.mem_cons_self))

/-- A clause may follow. -/
theorem Follows.of_clause {c : Clause α} (named : ∀ v ∈ c.binder, IsWord v.name)
    (each : ∀ a ∈ c.children, (r a).Shows (T a)) (column : Nat) :
    Follows (Rendering.clause column (c.map r)).toList (Token.clause (c.map T)) := by
  obtain ⟨binder, filter, body⟩ := c
  obtain ⟨filters, bodies⟩ := List.forall_mem_append.1 each
  have content := (Follows.of_headed (isWord_keyword "when" (by decide))
    (fun a inside ↦ filters a (Option.mem_toList.2 inside)) (column + 2)).append
    (Follows.rows bodies (column + 2))
  rw [← String.toList_append] at content
  have apart : Rendering.clause column (Clause.map r ⟨binder, filter, body⟩) =
      Rendering.part column (binder.elim "catch" fun v ↦ "catch " ++ v.text)
        (Rendering.headed (column + 2) "when" (filter.map r) ++ below (column + 2) [r body]) := by
    cases binder <;> cases filter <;> rfl
  rw [apart]
  cases binder with
  | none =>
    exact .of_part (isWord_keyword "catch" (by decide)) (List.append_nil _).symm .nil content column
  | some v =>
    exact .of_part (isWord_keyword "catch" (by decide)) (by simp [Variable.text])
      (.word (isWord_symbolText (named v rfl) v.id)) content column

/-- A case may follow. -/
theorem Follows.of_case {c : Case α} (each : (r c.body).Shows (T c.body)) (column : Nat) :
    Follows (Rendering.case column (c.map r)).toList (Token.case (c.map T)) := by
  obtain ⟨tests, body⟩ := c
  have isWord : ∀ t ∈ tests, IsWord (toString t.toInt) := fun _ _ ↦ isWord_toString _
  have content := Follows.rows (List.forall_mem_singleton.2 each) (column + 2)
  have known := isWord_keyword "case" (by decide)
  cases tests with
  | nil => exact .of_part known (by simp [Case.map]) (.blank .nil) content column
  | cons t ts =>
    have words := Follows.of_words (List.forall_mem_map.2 isWord)
    rw [List.map_map] at words
    refine .of_part known ?_ words content column
    rw [String.toList_append, Case.map, List.map_cons, toList_words]
    simp

/-- Texts that may follow may follow each other. -/
theorem Follows.of_join {β γ δ : Type} {bs : List β} {g : β → γ} {h : β → δ} {text : γ → String}
    {ts : δ → List Token} (each : ∀ b ∈ bs, Follows (text (g b)).toList (ts (h b))) :
    Follows (String.join ((bs.map g).map text)).toList ((bs.map h).flatMap ts) := by
  rw [String.toList_join, List.flatMap_map, List.flatMap_map, List.flatMap_map]
  exact .flatMap each

/-- A layer on several lines contributes its tokens. -/
theorem Shape.content_writes {sh : Shape α} (named : ∀ name ∈ sh.shownNames, IsWord name)
    (each : ∀ a ∈ sh.children, (r a).Shows (T a))
    (noInline : inlineForm (sh.map fun a ↦ (r a).inline) = none) (column : Nat) :
    Writes ('(' :: ((content column (sh.map r)).toList ++ [')'])) ((sh.map T).tokens false) := by
  have rows (as : List α) (inside : ∀ a ∈ as, a ∈ sh.children) :
      Follows (below column (as.map r)).toList (items false (as.map T)) :=
    .rows (fun a member ↦ each a (inside a member)) column
  have headed (heading : String) (known : heading ∈ keywords) (o : Option α)
      (inside : ∀ a ∈ o, a ∈ sh.children) :
      Follows (Rendering.headed column heading (o.map r)).toList
        ((o.map T).toList.flatMap (headed heading)) :=
    .of_headed (isWord_keyword heading known) (fun a member ↦ each a (inside a member)) column
  -- A form is its keyword, what it shows itself, and its children on rows of their own.
  cases sh with
  | block declared statements =>
    exact .of_content "block" (by decide) (by simp [content, map])
      ((Follows.of_names (List.forall_mem_map.1 named)).append (rows statements fun _ ↦ id))
  | await operand acquire result =>
    have text : content column ((Shape.await operand acquire result).map r) =
        "await " ++ result.name ++ (acquire.elim "" fun name ↦ " via " ++ name) ++
          below column [r operand] := by
      cases acquire <;> rfl
    exact .of_content "await" (by decide) (by simp [text])
      ((Follows.word (isWord_type result)).append
        ((Follows.of_acquire named).append (rows [operand] fun _ ↦ id)))
  | region body clauses cleanup fault =>
    have clauses' : Follows
        (String.join ((clauses.map (Clause.map r)).map (Rendering.clause column))).toList
        ((clauses.map (Clause.map T)).flatMap Token.clause) := by
      refine .of_join fun c member ↦ .of_clause (fun v binder ↦ ?_) (fun a inside ↦ ?_) column
      · refine named _ (List.mem_flatMap.2 ⟨c, member, ?_⟩)
        exact List.mem_map_of_mem (Option.mem_toList.2 binder)
      · refine each a (List.mem_append_left _ (List.mem_append_left _ (List.mem_cons_of_mem _ ?_)))
        exact List.mem_flatMap.2 ⟨c, member, inside⟩
    exact .of_content "try" (by decide) (by simp [content, map])
      ((((rows [body] (by simp [children])).append clauses').append
        (headed "finally" (by decide) cleanup (by simp +contextual [children]))).append
        (headed "fault" (by decide) fault (by simp +contextual [children])))
  | loop body breakLabel continueLabel =>
    obtain ⟨breaks, continues⟩ := List.forall_mem_append.1 named
    have text : content column ((Shape.loop body breakLabel continueLabel).map r) =
        "loop" ++ (breakLabel.elim "" fun l ↦ " " ++ "break" ++ "=" ++ l.text) ++
          (continueLabel.elim "" fun l ↦ " " ++ "continue" ++ "=" ++ l.text) ++
          below column [r body] := by
      cases breakLabel <;> cases continueLabel <;> rfl
    exact .of_content "loop" (by decide) (by simp [text])
      (((Follows.of_named (isWord_keyword "break" (by decide)) breaks).append
        (.of_named (isWord_keyword "continue" (by decide)) continues)).append
        (rows [body] fun _ ↦ id))
  | switch value cases otherwise =>
    have cases' : Follows
        (String.join ((cases.map (Case.map r)).map (Rendering.case column))).toList
        ((cases.map (Case.map T)).flatMap Token.case) :=
      .of_join fun c member ↦ .of_case (each c.body (List.mem_append_left _
        (List.mem_cons_of_mem _ (List.mem_map_of_mem member)))) column
    exact .of_content "switch" (by decide) (by simp [content, map])
      (((rows [value] (by simp [children])).append cases').append
        (headed "default" (by decide) otherwise (by simp +contextual [children])))
  | branch test yes no =>
    have all := rows (test :: yes :: no.toList) fun _ ↦ id
    simp only [List.map_cons, ← Option.toList_map] at all
    exact .of_content "if" (by decide) (by simp [content, map]) all
  | lock guard body =>
    exact .of_content "lock" (by decide) (by simp [content, map]) (rows [guard, body] fun _ ↦ id)
  | assign v value =>
    exact .of_content "assign" (by decide) (by simp [content, map, Variable.text])
      ((Follows.word (isWord_symbolText (named _ List.mem_cons_self) v.id)).append
        (rows [value] fun _ ↦ id))
  | call callee args =>
    exact .of_content "call" (by decide) (by simp [content, map])
      ((Follows.word (named _ List.mem_cons_self)).append (rows args fun _ ↦ id))
  | binary op left right =>
    exact .of_content "binary" (by decide) (by simp [content, map])
      ((Follows.word (isWord_sign op)).append (rows [left, right] fun _ ↦ id))
  | unary op operand =>
    exact .of_content "unary" (by decide) (by simp [content, map]) (rows [operand] fun _ ↦ id)
  | awaiter step operand =>
    exact .of_content "awaiter" (by decide) (by simp [content, map]) (rows [operand] fun _ ↦ id)
  | ret value =>
    cases value with
    | none => cases noInline
    | some value =>
      exact .of_content "return" (by decide) (by simp [content, map]) (rows [value] fun _ ↦ id)
  | raise value =>
    cases value with
    | none => cases noInline
    | some value =>
      exact .of_content "throw" (by decide) (by simp [content, map]) (rows [value] fun _ ↦ id)
  | _ => cases noInline

end

/-! ### Trees -/

namespace Node

/-- The names in a part of a tree are words if those in the tree are. -/
theorem PlainlyNamed.child {n c : Node} (h : n.PlainlyNamed) (child : c ∈ n.children) :
    c.PlainlyNamed :=
  fun m inside ↦ h m (mem_walk_of_mem_children inside child)

/-- Both forms of a tree contribute its tokens. -/
theorem shows {n : Node} (named : n.PlainlyNamed) : n.rendering.Shows n.tokens := by
  induction n using Node.induction with
  | step n ih =>
    have each : ∀ c ∈ n.children, c.rendering.Shows c.tokens :=
      fun c child ↦ ih c child (named.child child)
    have names := named n (mem_walk_self n)
    have form : inlineForm ((n.shape.map rendering).map Rendering.inline) =
        inlineForm (n.shape.map fun c ↦ c.rendering.inline) := by
      rw [Shape.map_map]
      rfl
    have known : n.onLine = (inlineForm (n.shape.map fun c ↦ c.rendering.inline)).isSome := by
      rw [onLine, rendering_eq, inline_ofLayer, form]
    rw [tokens_eq, known, rendering_eq, ofLayer, form]
    cases inline : inlineForm (n.shape.map fun c ↦ c.rendering.inline) with
    | some text =>
      have writes := Shape.inline_writes names each inline
      exact ⟨fun _ same ↦ Option.some.inj same ▸ writes, fun column ↦ writes.indented column⟩
    | none =>
      refine ⟨nofun, fun column ↦ ?_⟩
      have writes := Shape.content_writes names each inline (column + 2)
      have text (inner : String) : (indent column ++ "(" ++ inner ++ ")").toList =
          List.replicate column ' ' ++ '(' :: (inner.toList ++ [')']) := by
        simp [indent]
      rw [text]
      exact writes.blanks column

/-- A dump falls into the tokens of its tree. -/
theorem dump_spells {n : Node} (named : n.PlainlyNamed) : Spells n.dump.toList n.tokens :=
  ((shows named).lines 0).spells

end Node

end Suspension
