import Mathlib.Data.List.Basic
import Suspension.Symbol

/-!
# The tokens of a text

A text of words, quoted texts, brackets and line ends falls into them in one way only
(`Spells.unique`): a word ends where a separator stands, and a quoted text ends at its first bare
quote, because `Text.quotedChar` is a prefix code (`Text.quotedChar_unique`). How many blanks stand
between two tokens does not matter. `Writes` says that a piece of text contributes certain tokens,
whatever follows it, so that the tokens of a text are read off its pieces.
-/

namespace Suspension

/-- A list that stops at the first element of some kind is determined by any text it starts. -/
theorem append_unique {α : Type} {stops : α → Prop} {as as' rest rest' : List α}
    (inside : ∀ a ∈ as, ¬ stops a) (inside' : ∀ a ∈ as', ¬ stops a)
    (ends : ∀ a ∈ rest.head?, stops a) (ends' : ∀ a ∈ rest'.head?, stops a)
    (h : as ++ rest = as' ++ rest') : as = as' ∧ rest = rest' := by
  induction as generalizing as' with
  | nil =>
    cases as' with
    | nil => exact ⟨rfl, h⟩
    | cons a' as' =>
      obtain rfl : rest = a' :: (as' ++ rest') := h
      exact absurd (ends a' rfl) (inside' a' List.mem_cons_self)
  | cons a as ih =>
    cases as' with
    | nil =>
      obtain rfl : a :: (as ++ rest) = rest' := h
      exact absurd (ends' a rfl) (inside a List.mem_cons_self)
    | cons a' as' =>
      obtain ⟨rfl, tail⟩ := List.cons.inj h
      obtain ⟨rfl, rest⟩ := ih (List.forall_mem_cons.1 inside).2
        (List.forall_mem_cons.1 inside').2 tail
      exact ⟨rfl, rest⟩

/-! ### Quoted texts -/

namespace Text

/-- Hexadecimal digits tell the numbers below sixteen apart. -/
theorem digitChar_injective : ∀ a < 16, ∀ b < 16, a.digitChar = b.digitChar → a = b := by
  decide

/-- A number is known from its hexadecimal digits. -/
theorem toDigits_injective {a b : Nat} (h : Nat.toDigits 16 a = Nat.toDigits 16 b) : a = b := by
  induction a using Nat.strongRecOn generalizing b with
  | _ a ih =>
    rw [Nat.toDigits_eq_if (by decide), Nat.toDigits_eq_if (n := b) (by decide)] at h
    have some' (n : Nat) : Nat.toDigits 16 n ≠ [] := Nat.toDigits_ne_nil
    split at h <;> split at h
    · exact digitChar_injective a ‹_› b ‹_› (List.cons.inj h).1
    · rw [← List.nil_append [a.digitChar]] at h
      exact absurd (List.append_inj_left' h rfl).symm (some' _)
    · rw [← List.nil_append [b.digitChar]] at h
      exact absurd (List.append_inj_left' h rfl) (some' _)
    · have last := List.append_inj_right' h rfl
      have small (n : Nat) : n % 16 < 16 := Nat.mod_lt _ (by decide)
      have low := digitChar_injective _ (small a) _ (small b) (List.cons.inj last).1
      have high := ih (a / 16) (by omega) (List.append_inj_left' h rfl)
      omega

/-- No hexadecimal digit is a closing brace. -/
theorem ne_brace_of_mem_toDigits (n : Nat) : ∀ d ∈ Nat.toDigits 16 n, d ≠ '\x7d' := by
  induction n using Nat.strongRecOn with
  | _ n ih =>
    have digit (d : Nat) : d.digitChar ≠ '\x7d' := Nat.digitChar_ne _ rfl
    rw [Nat.toDigits_eq_if (by decide)]
    split
    · simp [digit n]
    · exact List.forall_mem_append.2 ⟨ih (n / 16) (by omega), by simp [digit (n % 16)]⟩

/-- The characters with a short escape, and what stands behind the backslash. -/
def shortEscapes : List (Char × Char) :=
  [('\x00', '0'), ('\t', 't'), ('\r', 'r'), ('\n', 'n'), ('\\', '\\'), ('"', '"')]

/-- The three written forms of a character. -/
inductive QuotedForm : Char → List Char → Prop
  | short {c e : Char} (escape : (c, e) ∈ shortEscapes) : QuotedForm c ['\\', e]
  | plain {c : Char} (noBackslash : c ≠ '\\') (noQuote : c ≠ '"') : QuotedForm c [c]
  | numbered (c : Char) : QuotedForm c (numbered c)

/-- Every character is quoted in one of the forms. -/
theorem quotedForm (c : Char) : QuotedForm c (quotedChar c) := by
  unfold quotedChar
  split
  · rename_i h
    exact h ▸ .short (by decide)
  split
  · rename_i h
    exact h ▸ .short (by decide)
  split
  · rename_i h
    exact h ▸ .short (by decide)
  split
  · rename_i h
    exact h ▸ .short (by decide)
  split
  · rename_i h
    rcases h with rfl | rfl <;> exact .short (by decide)
  rename_i other
  split
  · exact .numbered c
  split
  · exact .plain (fun h ↦ other (.inl h)) (fun h ↦ other (.inr h))
  · exact .numbered c

/-- No quoted character starts with a quotation mark. -/
theorem quotedChar_ne_quote (c : Char) (rest t : List Char) : quotedChar c ++ rest ≠ '"' :: t := by
  have form := quotedForm c
  generalize quotedChar c = cs at form
  cases form with
  | plain noBackslash noQuote => exact fun h ↦ noQuote (List.cons.inj h).1
  | _ => exact fun h ↦ absurd (List.cons.inj h).1 (by decide)

/-- The written forms of characters are a prefix code. -/
theorem quotedChar_unique {c c' : Char} {rest rest' : List Char}
    (h : quotedChar c ++ rest = quotedChar c' ++ rest') : c = c' ∧ rest = rest' := by
  have form := quotedForm c
  have form' := quotedForm c'
  generalize quotedChar c = cs at form h
  generalize quotedChar c' = cs' at form' h
  have noNumber {c c' e : Char} (escape : (c, e) ∈ shortEscapes) {rest rest' : List Char} :
      ['\\', e] ++ rest ≠ numbered c' ++ rest' := by
    intro same
    have second : e = 'u' := (List.cons.inj (List.cons.inj same).2).1
    subst second
    revert escape
    simp [shortEscapes]
  cases form with
  | short escape =>
    cases form' with
    | short escape' =>
      obtain ⟨same, rest⟩ := List.cons.inj (List.cons.inj h).2
      refine ⟨?_, rest⟩
      simp only [shortEscapes, List.mem_cons, Prod.mk.injEq, List.not_mem_nil, or_false] at *
      grind
    | plain noBackslash => exact absurd (List.cons.inj h).1.symm noBackslash
    | numbered => exact absurd h (noNumber escape)
  | plain noBackslash =>
    cases form' with
    | plain => exact List.cons.inj h
    | _ => exact absurd (List.cons.inj h).1 noBackslash
  | numbered =>
    cases form' with
    | short escape' => exact absurd h.symm (noNumber escape')
    | plain noBackslash => exact absurd (List.cons.inj h).1.symm noBackslash
    | numbered =>
      have digits : Nat.toDigits 16 c.toNat ++ '\x7d' :: rest =
          Nat.toDigits 16 c'.toNat ++ '\x7d' :: rest' := by
        simpa [numbered] using h
      obtain ⟨number, rest⟩ := append_unique (ne_brace_of_mem_toDigits _)
        (ne_brace_of_mem_toDigits _) (by simp) (by simp) digits
      exact ⟨Char.toNat_inj.1 (toDigits_injective number), (List.cons.inj rest).2⟩

/-- A string is known from its quoted characters, up to the closing quotation mark. -/
theorem flatMap_quotedChar_unique {s s' rest rest' : List Char}
    (h : s.flatMap quotedChar ++ '"' :: rest = s'.flatMap quotedChar ++ '"' :: rest') :
    s = s' ∧ rest = rest' := by
  induction s generalizing s' with
  | nil =>
    cases s' with
    | nil => exact ⟨rfl, (List.cons.inj h).2⟩
    | cons c' s' =>
      rw [List.flatMap_cons, List.append_assoc] at h
      exact absurd h.symm (quotedChar_ne_quote c' _ _)
  | cons c s ih =>
    cases s' with
    | nil =>
      rw [List.flatMap_cons, List.append_assoc] at h
      exact absurd h (quotedChar_ne_quote c _ _)
    | cons c' s' =>
      rw [List.flatMap_cons, List.flatMap_cons, List.append_assoc, List.append_assoc] at h
      obtain ⟨rfl, tail⟩ := quotedChar_unique h
      obtain ⟨rfl, rest⟩ := ih tail
      exact ⟨rfl, rest⟩

/-- A quoted string stands between quotation marks. -/
theorem toList_quoted (s : String) (rest : List Char) :
    (quoted s).toList ++ rest = '"' :: (s.toList.flatMap quotedChar ++ '"' :: rest) := by
  simp [quoted]

end Text

/-! ### Tokens -/

/-- The characters that are tokens by themselves. -/
def marks : List Char :=
  ['(', ')', '[', ']', '\n']

/-- The characters that no word has. -/
def IsSeparator (c : Char) : Prop :=
  c = ' ' ∨ c = '"' ∨ c ∈ marks

/-- A text without separators, and not without any character. -/
structure IsWord (text : String) : Prop where
  ne_nil : text.toList ≠ []
  plain : ∀ c ∈ text.toList, ¬ IsSeparator c

/-- A word does not start with a separator. -/
theorem IsWord.ne_cons {text : String} (isWord : IsWord text) {c : Char} (separator : IsSeparator c)
    (rest t : List Char) : text.toList ++ rest ≠ c :: t := by
  intro same
  have plain := isWord.plain
  cases letters : text.toList with
  | nil => exact isWord.ne_nil letters
  | cons d ds =>
    rw [letters] at plain same
    obtain rfl := (List.cons.inj same).1
    exact plain d List.mem_cons_self separator

/-- A text that does not go on with a word. -/
def Delimited (text : List Char) : Prop :=
  ∀ c ∈ text.head?, IsSeparator c

/-- A part of a text. -/
inductive Token
  | word (text : String)
  | quoted (text : String)
  | mark (c : Char)
  deriving DecidableEq

namespace Token

/-- How a token is written. -/
def written : Token → List Char
  | word text => text.toList
  | quoted text => (Text.quoted text).toList
  | mark c => [c]

/-- What is a token in front of some text. -/
inductive StandsBefore : Token → List Char → Prop
  | word {text : String} {rest : List Char} (isWord : IsWord text) (ends : Delimited rest) :
    StandsBefore (word text) rest
  | quoted (text : String) (rest : List Char) : StandsBefore (quoted text) rest
  | mark {c : Char} (isMark : c ∈ marks) (rest : List Char) : StandsBefore (mark c) rest

variable {token token' : Token} {rest rest' : List Char}

/-- A token does not start with a blank. -/
theorem StandsBefore.ne_blank (h : token.StandsBefore rest) (t : List Char) :
    token.written ++ rest ≠ ' ' :: t := by
  cases h with
  | word isWord => exact isWord.ne_cons (.inl rfl) _ _
  | quoted text =>
    rw [written, Text.toList_quoted]
    exact fun same ↦ absurd (List.cons.inj same).1 (by decide)
  | mark isMark =>
    intro same
    obtain rfl := (List.cons.inj same).1
    exact absurd isMark (by decide)

/-- A text starts with one token at most. -/
theorem StandsBefore.unique (h : token.StandsBefore rest) (h' : token'.StandsBefore rest')
    (same : token.written ++ rest = token'.written ++ rest') : token = token' ∧ rest = rest' := by
  have quote : IsSeparator '"' := .inr (.inl rfl)
  cases h with
  | word isWord ends =>
    cases h' with
    | word isWord' ends' =>
      obtain ⟨letters, rest⟩ := append_unique isWord.plain isWord'.plain ends ends' same
      exact ⟨by rw [String.toList_inj.1 letters], rest⟩
    | quoted text =>
      rw [written, written, Text.toList_quoted] at same
      exact absurd same (isWord.ne_cons quote _ _)
    | mark isMark => exact absurd same (isWord.ne_cons (.inr (.inr isMark)) _ _)
  | quoted text =>
    rw [written, Text.toList_quoted] at same
    cases h' with
    | word isWord' => exact absurd same.symm (isWord'.ne_cons quote _ _)
    | quoted text' =>
      rw [written, Text.toList_quoted] at same
      obtain ⟨letters, rest⟩ := Text.flatMap_quotedChar_unique (List.cons.inj same).2
      exact ⟨by rw [String.toList_inj.1 letters], rest⟩
    | mark isMark =>
      obtain rfl := (List.cons.inj same).1
      exact absurd isMark (by decide)
  | mark isMark =>
    cases h' with
    | word isWord' => exact absurd same.symm (isWord'.ne_cons (.inr (.inr isMark)) _ _)
    | quoted text =>
      rw [written, written, Text.toList_quoted] at same
      obtain rfl := (List.cons.inj same).1
      exact absurd isMark (by decide)
    | mark =>
      obtain ⟨rfl, rest⟩ := List.cons.inj same
      exact ⟨rfl, rest⟩

end Token

/-- A text falls into tokens. -/
inductive Spells : List Char → List Token → Prop
  | nil : Spells [] []
  | blank {text : List Char} {ts : List Token} (rest : Spells text ts) : Spells (' ' :: text) ts
  | token {t : Token} {text : List Char} {ts : List Token} (stands : t.StandsBefore text)
    (rest : Spells text ts) : Spells (t.written ++ text) (t :: ts)

/-- A text falls into tokens in one way only. -/
theorem Spells.unique {text : List Char} {ts ts' : List Token} (h : Spells text ts)
    (h' : Spells text ts') : ts = ts' := by
  have some' {t : Token} {text : List Char} (stands : t.StandsBefore text) :
      t.written ++ text ≠ [] := by
    intro none
    cases stands with
    | word isWord => exact isWord.ne_nil (List.append_eq_nil_iff.1 none).1
    | quoted text => simp [Token.written, Text.quoted] at none
    | mark => exact absurd none (List.cons_ne_nil _ _)
  induction h generalizing ts' with
  | nil =>
    generalize same : [] = text at h'
    cases h' with
    | nil => rfl
    | blank => cases same
    | token stands => exact absurd same.symm (some' stands)
  | @blank text ts rest ih =>
    generalize same : ' ' :: text = text' at h'
    cases h' with
    | nil => cases same
    | blank rest' => exact ih ((List.cons.inj same).2 ▸ rest')
    | token stands => exact absurd same.symm (stands.ne_blank _)
  | @token t text ts stands rest ih =>
    generalize same : t.written ++ text = text' at h'
    cases h' with
    | nil => exact absurd same (some' stands)
    | blank => exact absurd same (stands.ne_blank _)
    | token stands' rest' =>
      obtain ⟨rfl, rfl⟩ := stands.unique stands' same
      rw [ih rest']

/-! ### Pieces of texts -/

theorem Delimited.nil : Delimited [] :=
  nofun

theorem Delimited.cons {c : Char} (separator : IsSeparator c) (text : List Char) :
    Delimited (c :: text) := by
  rintro _ ⟨⟩
  exact separator

/-- What is delimited is delimited with anything delimited behind it. -/
theorem Delimited.append {text rest : List Char} (h : Delimited text) (h' : Delimited rest) :
    Delimited (text ++ rest) := by
  cases text with
  | nil => exact h'
  | cons c text => exact .cons (h c rfl) _

/-- A piece of text contributes some tokens, whatever delimited text follows it. -/
def Writes (text : List Char) (ts : List Token) : Prop :=
  ∀ rest us, Delimited rest → Spells rest us → Spells (text ++ rest) (ts ++ us)

namespace Writes

variable {text text' : List Char} {ts ts' : List Token}

/-- What is written as tokens spells them. -/
theorem spells (h : Writes text ts) : Spells text ts := by
  simpa using h [] [] .nil .nil

theorem nil : Writes [] [] :=
  fun _ _ _ rest ↦ rest

/-- A word is written as itself. -/
theorem word {text : String} (isWord : IsWord text) : Writes text.toList [.word text] :=
  fun _ _ ends rest ↦ .token (.word isWord ends) rest

/-- A quoted string is written as itself. -/
theorem quoted (text : String) : Writes (Text.quoted text).toList [.quoted text] :=
  fun _ _ _ rest ↦ .token (.quoted text _) rest

/-- Text that is delimited may stand behind other text. -/
theorem append (h : Writes text ts) (h' : Writes text' ts') (ends : Delimited text') :
    Writes (text ++ text') (ts ++ ts') := by
  intro rest us delimited spells
  rw [List.append_assoc, List.append_assoc]
  exact h _ _ (ends.append delimited) (h' rest us delimited spells)

/-- A blank in front changes no tokens. -/
theorem blank (h : Writes text ts) : Writes (' ' :: text) ts :=
  fun rest us delimited spells ↦ .blank (h rest us delimited spells)

/-- A mark in front is one more token. -/
theorem mark {c : Char} (isMark : c ∈ marks) (h : Writes text ts) :
    Writes (c :: text) (.mark c :: ts) :=
  fun rest us delimited spells ↦
    .token (t := .mark c) (.mark isMark _) (h rest us delimited spells)

/-- Blanks in front change no tokens. -/
theorem blanks (n : Nat) (h : Writes text ts) : Writes (List.replicate n ' ' ++ text) ts := by
  induction n with
  | zero => exact h
  | succ n ih => exact ih.blank

end Writes

/-- A piece of text that contributes some tokens, and may follow a word. -/
structure Follows (text : List Char) (ts : List Token) : Prop where
  writes : Writes text ts
  delimited : Delimited text

namespace Follows

variable {text text' : List Char} {ts ts' : List Token}

theorem nil : Follows [] [] :=
  ⟨.nil, .nil⟩

/-- Tokens may follow after a blank. -/
theorem blank (h : Writes text ts) : Follows (' ' :: text) ts :=
  ⟨h.blank, .cons (.inl rfl) _⟩

/-- A mark follows by itself. -/
theorem mark {c : Char} (isMark : c ∈ marks) (h : Writes text ts) :
    Follows (c :: text) (.mark c :: ts) :=
  ⟨h.mark isMark, .cons (.inr (.inr isMark)) _⟩

/-- What follows may be followed. -/
theorem append (h : Follows text ts) (h' : Follows text' ts') :
    Follows (text ++ text') (ts ++ ts') :=
  ⟨h.writes.append h'.writes h'.delimited, h.delimited.append h'.delimited⟩

/-- Many texts follow each other if each of them follows by itself. -/
theorem flatMap {α : Type} {as : List α} {f : α → List Char} {g : α → List Token}
    (each : ∀ a ∈ as, Follows (f a) (g a)) : Follows (as.flatMap f) (as.flatMap g) := by
  induction as with
  | nil => exact nil
  | cons a as ih =>
    obtain ⟨first, others⟩ := List.forall_mem_cons.1 each
    exact first.append (ih others)

end Follows

end Suspension
