import Mathlib.Data.List.Infix
import Suspension.Proofs.Reading.Tokens

/-!
# Written values are read back

`read?_print` says that the strict reader takes the writer's text for a value back to that value, if
its numbers are whole and fit a word and its arrays and objects nest no deeper than the reader
follows them.

The writer is told what comes behind a value, so the statement for a part of a text is
`readValue_put`: behind the value the reader stands where the writer put the rest. Two things are
carried along beside it. The reader counts the items of a list down from the length of the whole
text, so it has to be known that what follows a value ends the text of that value (`suffix_put`).
And the reader decides by the next character what to read, so `put_cons` keeps of each value that
it starts with a character that is no blank and closes no array.
-/

namespace Suspension.Json

/-! ### Induction over values -/

/-- What holds of a value whenever it holds of what the value holds is true of every value. -/
@[elab_as_elim]
theorem induction {motive : Json → Prop} (null : motive .null)
    (bool : ∀ value, motive (.bool value)) (int : ∀ value, motive (.int value))
    (real : ∀ text, motive (.real text)) (str : ∀ value, motive (.str value))
    (arr : ∀ items, (∀ j ∈ items, motive j) → motive (.arr items))
    (obj : ∀ members, (∀ m ∈ members, motive m.2) → motive (.obj members)) (j : Json) :
    motive j :=
  Json.rec (motive_1 := motive) (motive_2 := fun js ↦ ∀ j ∈ js, motive j)
    (motive_3 := fun ms ↦ ∀ m ∈ ms, motive m.2) (motive_4 := fun m ↦ motive m.2)
    null bool int real str arr obj nofun (fun _ _ head tail ↦ List.forall_mem_cons.2 ⟨head, tail⟩)
    nofun (fun _ _ head tail ↦ List.forall_mem_cons.2 ⟨head, tail⟩) (fun _ _ h ↦ h) j

/-- How deep arrays and objects enclose each other. -/
def depth : Json → Nat :=
  fold {
    leaf := fun _ ↦ 0
    arr := fun _ depths ↦ depths.foldr max 0 + 1
    obj := fun _ depths ↦ (depths.map Prod.snd).foldr max 0 + 1 }

/-- Whether every number is whole and fits a word, signed or not. -/
def isPlain : Json → Bool :=
  fold {
    leaf := fun
      | .int value => -UInt64.size < value && value < UInt64.size
      | .real _ => false
      | _ => true
    arr := fun _ plain ↦ plain.all fun p ↦ p
    obj := fun _ plain ↦ plain.all fun p ↦ p.2 }

/-- An integer is plain if its amount fits into 64 bits. -/
theorem isPlain_int {value : Int} :
    (int value).isPlain ↔ -UInt64.size < value ∧ value < UInt64.size := by
  show (decide _ && decide _) = true ↔ _
  rw [Bool.and_eq_true, decide_eq_true_iff, decide_eq_true_iff]

/-- An array is plain if its items are. -/
theorem isPlain_arr {items : List Json} : (arr items).isPlain ↔ ∀ j ∈ items, j.isPlain := by
  have eq : (arr items).isPlain = items.all isPlain := by
    simp only [isPlain, fold, foldItems_eq, List.all_map]
    rfl
  rw [eq, List.all_eq_true]

/-- An object is plain if its members are. -/
theorem isPlain_obj {members : List (String × Json)} :
    (obj members).isPlain ↔ ∀ m ∈ members, m.2.isPlain := by
  have eq : (obj members).isPlain = members.all fun m ↦ m.2.isPlain := by
    simp only [isPlain, fold, foldMembers_eq, List.all_map]
    rfl
  rw [eq, List.all_eq_true]

/-- A bound on a nesting, one level further in for what a list holds. -/
theorem foldr_max_succ_le {α : Type} {f : α → Nat} {as : List α} {d : Nat} :
    (as.map f).foldr max 0 + 1 ≤ d ↔ ∃ d', d = d' + 1 ∧ ∀ a ∈ as, f a ≤ d' := by
  have bounds (d' : Nat) : (as.map f).foldr max 0 ≤ d' ↔ ∀ a ∈ as, f a ≤ d' := by
    induction as with
    | nil => simp
    | cons a as ih => rw [List.map_cons, List.foldr_cons, Nat.max_le, ih, List.forall_mem_cons]
  constructor
  · intro h
    exact ⟨d - 1, by omega, (bounds _).1 (by omega)⟩
  · rintro ⟨d', rfl, h⟩
    exact Nat.succ_le_succ ((bounds _).2 h)

/-- An array is one level deeper than its items. -/
theorem depth_arr_le {items : List Json} {d : Nat} :
    (arr items).depth ≤ d ↔ ∃ d', d = d' + 1 ∧ ∀ j ∈ items, j.depth ≤ d' := by
  have eq : (arr items).depth = (items.map depth).foldr max 0 + 1 := by
    simp only [depth, fold, foldItems_eq]
  rw [eq, foldr_max_succ_le]

/-- An object is one level deeper than its members. -/
theorem depth_obj_le {members : List (String × Json)} {d : Nat} :
    (obj members).depth ≤ d ↔ ∃ d', d = d' + 1 ∧ ∀ m ∈ members, m.2.depth ≤ d' := by
  have eq : (obj members).depth = (members.map fun m ↦ m.2.depth).foldr max 0 + 1 := by
    simp only [depth, fold, foldMembers_eq, List.map_map]
    rfl
  rw [eq, foldr_max_succ_le]

/-! ### What the writer puts -/

variable {column bound depth : Nat} {rest : List Char}

/-- A new line is blank. -/
theorem skipBlanks_putLine : skipBlanks (putLine column rest) = skipBlanks rest := by
  show (List.replicate column ' ' ++ rest).dropWhile isBlank = rest.dropWhile isBlank
  exact List.dropWhile_append_of_pos fun c member ↦ by rw [List.eq_of_mem_replicate member]; rfl

/-- A new line ends a number. -/
theorem endsNumber_putLine : EndsNumber (putLine column rest) := by
  rintro c ⟨⟩
  decide

/-- What follows an item ends a number. -/
theorem endsNumber_putItems {items : List Json} {column' : Nat} :
    EndsNumber (putItems column items (putLine column' rest)) := by
  cases items with
  | nil => exact endsNumber_putLine
  | cons item items =>
    rintro c ⟨⟩
    decide

/-- What follows a member ends a number. -/
theorem endsNumber_putMembers {members : List (String × Json)} {column' : Nat} :
    EndsNumber (putMembers column members (putLine column' rest)) := by
  cases members with
  | nil => exact endsNumber_putLine
  | cons m members =>
    rintro c ⟨⟩
    decide

/-- An integer starts with a digit or a minus sign. -/
theorem toString_cons (value : Int) :
    ∃ c cs, (toString value).toList = c :: cs ∧ (c.isDigit ∨ c = '-') := by
  cases value with
  | ofNat n =>
    have text : (toString (Int.ofNat n)).toList = Nat.toDigits 10 n := Nat.toList_repr
    rw [text]
    cases top : Nat.toDigits 10 n with
    | nil => exact absurd top Nat.toDigits_ne_nil
    | cons d ds => exact ⟨d, ds, rfl, .inl (isDigit_of_mem_toDigits d (top ▸ List.mem_cons_self))⟩
  | negSucc n =>
    refine ⟨'-', Nat.toDigits 10 (n + 1), ?_, .inr rfl⟩
    simp [Int.repr_eq_if, String.toList_append]

/-- No integer starts with a blank. -/
theorem isBlank_of_first {c : Char} (first : c.isDigit ∨ c = '-') : isBlank c = false := by
  rcases first with digit | rfl
  · by_contra blank
    simp only [isBlank, Bool.or_eq_true, beq_iff_eq, Bool.not_eq_false] at blank
    rcases blank with ((rfl | rfl) | rfl) | rfl <;> exact absurd digit (by decide)
  · decide

/-- A written value starts with a character that is no blank and closes no array. -/
theorem put_cons {j : Json} (plain : j.isPlain) (column : Nat) (rest : List Char) :
    ∃ c cs, put column j rest = c :: cs ∧ isBlank c = false ∧ c ≠ ']' := by
  match j with
  | .null => exact ⟨_, _, rfl, by decide, by decide⟩
  | .bool true => exact ⟨_, _, rfl, by decide, by decide⟩
  | .bool false => exact ⟨_, _, rfl, by decide, by decide⟩
  | .int value =>
    obtain ⟨c, cs, text, first⟩ := toString_cons value
    refine ⟨c, cs ++ rest, by rw [put, text]; rfl, isBlank_of_first first, ?_⟩
    rintro rfl
    exact absurd first (by decide)
  | .real text => exact absurd plain nofun
  | .str value => exact ⟨_, _, rfl, by decide, by decide⟩
  | .arr [] => exact ⟨_, _, rfl, by decide, by decide⟩
  | .arr (item :: items) => exact ⟨_, _, rfl, by decide, by decide⟩
  | .obj [] => exact ⟨_, _, rfl, by decide, by decide⟩
  | .obj (m :: members) => exact ⟨_, _, rfl, by decide, by decide⟩

theorem skipBlanks_cons {c : Char} (solid : isBlank c = false) (cs : List Char) :
    skipBlanks (c :: cs) = c :: cs :=
  List.dropWhile_cons_of_neg (by simp [solid])

/-- A value does not start with a blank. -/
theorem skipBlanks_put {j : Json} (plain : j.isPlain) (column : Nat) (rest : List Char) :
    skipBlanks (put column j rest) = put column j rest := by
  obtain ⟨c, cs, text, solid, -⟩ := put_cons plain column rest
  rw [text, skipBlanks_cons solid]

/-! ### What follows a value ends the text -/

/-- A new line is put in front of the rest. -/
theorem suffix_putLine (column : Nat) (rest : List Char) : rest <:+ putLine column rest :=
  (List.suffix_append _ _).trans (List.suffix_cons _ _)

/-- A string is put in front of the rest. -/
theorem suffix_putString (s : String) (rest : List Char) : rest <:+ putString s rest :=
  (List.suffix_cons _ _).trans ((List.suffix_append _ _).trans (List.suffix_cons _ _))

/-- Items are put in front of the rest. -/
theorem suffix_putItems {items : List Json}
    (h : ∀ j ∈ items, ∀ column rest, rest <:+ put column j rest) :
    rest <:+ putItems column items rest := by
  induction items with
  | nil => exact List.suffix_refl _
  | cons item items ih => calc
      rest <:+ putItems column items rest := ih fun j member ↦ h j (List.mem_cons_of_mem _ member)
      _ <:+ put column item _ := h item List.mem_cons_self _ _
      _ <:+ putLine column _ := suffix_putLine _ _
      _ <:+ putItems column (item :: items) rest := List.suffix_cons _ _

/-- Members are put in front of the rest. -/
theorem suffix_putMembers {members : List (String × Json)}
    (h : ∀ m ∈ members, ∀ column rest, rest <:+ put column m.2 rest) :
    rest <:+ putMembers column members rest := by
  induction members with
  | nil => exact List.suffix_refl _
  | cons m members ih => calc
      rest <:+ putMembers column members rest :=
        ih fun m member ↦ h m (List.mem_cons_of_mem _ member)
      _ <:+ put column m.2 _ := h m List.mem_cons_self _ _
      _ <:+ ':' :: ' ' :: _ := List.suffix_append [':', ' '] _
      _ <:+ putString m.1 _ := suffix_putString _ _
      _ <:+ putLine column _ := suffix_putLine _ _
      _ <:+ putMembers column (m :: members) rest := List.suffix_cons _ _

/-- What follows a value ends the text that the writer puts. -/
theorem suffix_put (j : Json) (column : Nat) (rest : List Char) : rest <:+ put column j rest := by
  induction j using induction generalizing column rest with
  | null => exact List.suffix_append ['n', 'u', 'l', 'l'] rest
  | bool value =>
    cases value with
    | true => exact List.suffix_append ['t', 'r', 'u', 'e'] rest
    | false => exact List.suffix_append ['f', 'a', 'l', 's', 'e'] rest
  | int value => exact List.suffix_append _ rest
  | real text => exact List.suffix_append _ rest
  | str value => exact suffix_putString _ _
  | arr items ih =>
    cases items with
    | nil => exact List.suffix_append ['[', ']'] rest
    | cons item items => calc
        rest <:+ ']' :: rest := List.suffix_cons _ _
        _ <:+ putLine column _ := suffix_putLine _ _
        _ <:+ putItems (column + 2) items _ :=
          suffix_putItems fun j member ↦ ih j (List.mem_cons_of_mem _ member)
        _ <:+ put (column + 2) item _ := ih item List.mem_cons_self _ _
        _ <:+ putLine (column + 2) _ := suffix_putLine _ _
        _ <:+ put column (arr (item :: items)) rest := List.suffix_cons _ _
  | obj members ih =>
    cases members with
    | nil => exact List.suffix_append ['\x7b', '\x7d'] rest
    | cons m members => calc
        rest <:+ '\x7d' :: rest := List.suffix_cons _ _
        _ <:+ putLine column _ := suffix_putLine _ _
        _ <:+ putMembers (column + 2) members _ :=
          suffix_putMembers fun m member ↦ ih m (List.mem_cons_of_mem _ member)
        _ <:+ put (column + 2) m.2 _ := ih m List.mem_cons_self _ _
        _ <:+ ':' :: ' ' :: _ := List.suffix_append [':', ' '] _
        _ <:+ putString m.1 _ := suffix_putString _ _
        _ <:+ putLine (column + 2) _ := suffix_putLine _ _
        _ <:+ put column (obj (m :: members)) rest := List.suffix_cons _ _

/-! ### What the reader takes -/

/-- Blanks in front of a value are of no account. -/
theorem readValue_congr {cs cs' : List Char} (h : skipBlanks cs = skipBlanks cs') :
    readValue bound depth cs = readValue bound depth cs' := by
  unfold readValue
  rw [h]

/-- Whether the reader takes what the writer puts for a value, in a text that fits its bound. -/
def ReadsBack (bound depth : Nat) (j : Json) : Prop :=
  ∀ column rest, (put column j rest).length ≤ bound → EndsNumber rest →
    readValue bound depth (put column j rest) = some (j, rest)

/-- Where the text goes on with a value, behind blanks or not, the reader takes it. -/
theorem ReadsBack.readValue {j : Json} (back : ReadsBack bound depth j) (plain : j.isPlain)
    {cs : List Char} (text : skipBlanks cs = put column j rest) (long : cs.length ≤ bound)
    (ends : EndsNumber rest) : readValue bound depth cs = some (j, rest) := by
  have le : (skipBlanks cs).length ≤ cs.length := (List.dropWhile_suffix _).length_le
  rw [text] at le
  rw [readValue_congr (text.trans (skipBlanks_put plain column rest).symm)]
  exact back column rest (Nat.le_trans le long) ends

/-- A value takes up some of the text. -/
theorem length_lt_of_put {j : Json} {c : Char} {cs rest : List Char}
    (text : skipBlanks cs = put column j (c :: rest)) : rest.length < cs.length := by
  have skipped : (skipBlanks cs).length ≤ cs.length := (List.dropWhile_suffix _).length_le
  have follows := (suffix_put j column (c :: rest)).length_le
  rw [← text, List.length_cons] at follows
  omega

/-- The items of an array are read back, if each of them is. -/
theorem readItems_put {item : Json} {items : List Json} {k column' : Nat} {cs : List Char}
    (plain : ∀ j ∈ item :: items, j.isPlain)
    (back : ∀ j ∈ item :: items, ReadsBack bound depth j)
    (text : skipBlanks cs =
      put column item (putItems column items (putLine column' (']' :: rest))))
    (long : cs.length ≤ k) (le : k ≤ bound) :
    readItems (readValue bound depth) k cs = some (item :: items, rest) := by
  induction items generalizing item k cs with
  | nil =>
    have first := (back item List.mem_cons_self).readValue (plain item List.mem_cons_self) text
      (by omega) endsNumber_putItems
    have shorter := length_lt_of_put (c := '\n') text
    have close : skipBlanks (putLine column' (']' :: rest)) = ']' :: rest := skipBlanks_putLine
    obtain ⟨k, rfl⟩ : ∃ k', k = k' + 1 := ⟨k - 1, by omega⟩
    simp only [readItems, first, putItems, close]
  | cons next items ih =>
    have first := (back item List.mem_cons_self).readValue (plain item List.mem_cons_self) text
      (by omega) endsNumber_putItems
    have shorter := length_lt_of_put (c := ',') text
    obtain ⟨k, rfl⟩ : ∃ k', k = k' + 1 := ⟨k - 1, by omega⟩
    have behind : skipBlanks (putLine column (put column next
        (putItems column items (putLine column' (']' :: rest))))) =
          put column next (putItems column items (putLine column' (']' :: rest))) :=
      skipBlanks_putLine.trans (skipBlanks_put (plain next (by simp)) _ _)
    have tail := ih (k := k) (fun j member ↦ plain j (List.mem_cons_of_mem _ member))
      (fun j member ↦ back j (List.mem_cons_of_mem _ member)) behind (by omega) (by omega)
    simp only [readItems, first, putItems, skipBlanks_cons (show isBlank ',' = false by decide),
      tail, Option.map_some]

/-- The name of a member is read back. -/
theorem readString_name (name : String) (rest : List Char) :
    readString [] (name.toList.flatMap escapedChar ++ '"' :: rest) = some (name, rest) := by
  rw [readString_escaped, List.reverse_nil, List.nil_append, String.ofList_toList]

/-- The name of a member takes up some of the text, and so does its value. -/
theorem length_lt_of_putString {s : String} {c : Char} {cs : List Char} {j : Json}
    (text : skipBlanks cs = putString s (c :: ' ' :: put column j rest)) :
    (' ' :: put column j rest).length < cs.length ∧ rest.length < cs.length := by
  have skipped : (skipBlanks cs).length ≤ cs.length := (List.dropWhile_suffix _).length_le
  have follows := (suffix_put j column rest).length_le
  have follows' := (suffix_putString s (c :: ' ' :: put column j rest)).length_le
  rw [← text] at follows'
  simp only [List.length_cons] at follows' ⊢
  omega

/-- The members of an object are read back, if the value of each is. -/
theorem readMembers_put {m : String × Json} {members : List (String × Json)} {k column' : Nat}
    {cs : List Char} (plain : ∀ m' ∈ m :: members, m'.2.isPlain)
    (back : ∀ m' ∈ m :: members, ReadsBack bound depth m'.2)
    (text : skipBlanks cs = putString m.1 (':' :: ' ' ::
      put column m.2 (putMembers column members (putLine column' ('\x7d' :: rest)))))
    (long : cs.length ≤ k) (le : k ≤ bound) :
    readMembers (readValue bound depth) k cs = some (m :: members, rest) := by
  have colon (cs : List Char) : skipBlanks (':' :: cs) = ':' :: cs := skipBlanks_cons rfl cs
  have behind (rest : List Char) : skipBlanks (' ' :: put column m.2 rest) = put column m.2 rest :=
    skipBlanks_put (plain m List.mem_cons_self) column rest
  induction members generalizing m k cs with
  | nil =>
    obtain ⟨shorter, -⟩ := length_lt_of_putString text
    have value := (back m List.mem_cons_self).readValue (plain m List.mem_cons_self) (behind _)
      (Nat.le_trans shorter.le (by omega)) endsNumber_putMembers
    have close : skipBlanks (putLine column' ('\x7d' :: rest)) = '\x7d' :: rest :=
      skipBlanks_putLine
    obtain ⟨k, rfl⟩ : ∃ k', k = k' + 1 := ⟨k - 1, by omega⟩
    simp only [readMembers, text, putString, readString_name, colon, value]
    simp only [putMembers, close]
  | cons next members ih =>
    obtain ⟨shorter, shorter'⟩ := length_lt_of_putString text
    have value := (back m List.mem_cons_self).readValue (plain m List.mem_cons_self) (behind _)
      (Nat.le_trans shorter.le (by omega)) endsNumber_putMembers
    rw [putMembers, List.length_cons] at shorter'
    obtain ⟨k, rfl⟩ : ∃ k', k = k' + 1 := ⟨k - 1, by omega⟩
    have comma (cs : List Char) : skipBlanks (',' :: cs) = ',' :: cs := skipBlanks_cons rfl cs
    have next' : skipBlanks (putLine column (putString next.1 (':' :: ' ' ::
        put column next.2 (putMembers column members (putLine column' ('\x7d' :: rest)))))) =
          putString next.1 (':' :: ' ' :: put column next.2
            (putMembers column members (putLine column' ('\x7d' :: rest)))) :=
      skipBlanks_putLine
    have tail := ih (k := k) (fun m member ↦ plain m (List.mem_cons_of_mem _ member))
      (fun m member ↦ back m (List.mem_cons_of_mem _ member)) next' (by omega) (by omega)
      (skipBlanks_put (plain next (by simp)) column)
    simp only [readMembers, text, putString, readString_name, colon, value]
    simp only [putMembers, comma, tail, Option.map_some]

/-- A value that starts with a digit or a minus sign is a number. -/
theorem readValue_number {c : Char} {cs : List Char} (first : c.isDigit ∨ c = '-') :
    readValue bound depth (c :: cs) = readNumber (c :: cs) := by
  unfold readValue
  rw [skipBlanks_cons (isBlank_of_first first)]
  split <;> rename_i h <;> first
    | rfl
    | (cases h; exact absurd first (by decide))

/-- An array that is not empty is read item by item. -/
theorem readValue_array {c : Char} {cs cs' : List Char} (text : skipBlanks cs = c :: cs')
    (opened : c ≠ ']') :
    readValue bound (depth + 1) ('[' :: cs) =
      (readItems (readValue bound depth) bound (c :: cs')).map
        fun (items, cs) ↦ (.arr items, cs) := by
  unfold readValue
  rw [skipBlanks_cons (by decide)]
  simp only [text]
  split
  · rename_i h
    exact absurd (List.cons.inj h).1 opened
  · rfl

/-- An object that is not empty is read member by member. -/
theorem readValue_object {cs cs' : List Char} (text : skipBlanks cs = '"' :: cs') :
    readValue bound (depth + 1) ('\x7b' :: cs) =
      (readMembers (readValue bound depth) bound ('"' :: cs')).map
        fun (members, cs) ↦ (.obj members, cs) := by
  unfold readValue
  rw [skipBlanks_cons (by decide)]
  simp only [text]
  rfl

/-- Behind a written value the reader stands where the writer put the rest. -/
theorem readValue_put {j : Json} (plain : j.isPlain) {depth : Nat} (deep : j.depth ≤ depth) :
    ReadsBack bound depth j := by
  induction j using induction generalizing depth with
  | null =>
    intro column rest long ends
    unfold readValue
    rfl
  | bool value =>
    intro column rest long ends
    unfold readValue
    cases value <;> rfl
  | int value =>
    intro column rest long ends
    obtain ⟨c, cs, text, first⟩ := toString_cons value
    have number := readNumber_toString (isPlain_int.1 plain) ends
    rw [put]
    rw [text] at number ⊢
    exact (readValue_number first).trans number
  | real text => exact absurd plain nofun
  | str value =>
    intro column rest long ends
    unfold readValue
    simp only [put, putString, skipBlanks_cons (show isBlank '"' = false by decide),
      readString_name, Option.map_some]
  | arr items ih =>
    obtain ⟨depth, rfl, inner⟩ := depth_arr_le.1 deep
    rw [isPlain_arr] at plain
    intro column rest long ends
    cases items with
    | nil =>
      unfold readValue
      rfl
    | cons item items =>
      have shown := plain item List.mem_cons_self
      obtain ⟨c, cs, first, -, opened⟩ := put_cons shown (column + 2)
        (putItems (column + 2) items (putLine column (']' :: rest)))
      have text := skipBlanks_put shown (column + 2)
        (putItems (column + 2) items (putLine column (']' :: rest)))
      -- The text of the items is a suffix of that of the array, so the fuel is enough for it.
      have behind := (suffix_putLine (column + 2) (put (column + 2) item
        (putItems (column + 2) items (putLine column (']' :: rest))))).length_le
      rw [put, List.length_cons] at long
      have list := readItems_put plain
        (fun j member ↦ ih j member (plain j member) (inner j member)) text
        (Nat.le_trans behind (by omega)) (Nat.le_refl bound)
      rw [first] at list
      rw [put, readValue_array ((skipBlanks_putLine.trans text).trans first) opened, list,
        Option.map_some]
  | obj members ih =>
    obtain ⟨depth, rfl, inner⟩ := depth_obj_le.1 deep
    rw [isPlain_obj] at plain
    intro column rest long ends
    cases members with
    | nil =>
      unfold readValue
      rfl
    | cons m members =>
      have behind := (suffix_putLine (column + 2) (putString m.1 (':' :: ' ' ::
        put (column + 2) m.2 (putMembers (column + 2) members
          (putLine column ('\x7d' :: rest)))))).length_le
      rw [put, List.length_cons] at long
      have list := readMembers_put plain
        (fun m member ↦ ih m member (plain m member) (inner m member))
        (skipBlanks_cons (by decide) _) (Nat.le_trans behind (by omega)) (Nat.le_refl bound)
      rw [put, readValue_object skipBlanks_putLine, list, Option.map_some]

/-- **The reader takes back what the writer puts**, as far as it follows the nesting. -/
theorem read?_print {j : Json} (plain : j.isPlain) (deep : j.depth ≤ nestingLimit) :
    read? j.print = some j := by
  have value : readValue ((put 0 j []).length + 1) nestingLimit (put 0 j []) = some (j, []) :=
    readValue_put plain deep 0 [] (Nat.le_succ _) nofun
  rw [read?, print, String.toList_ofList]
  simp only [value]
  rfl

end Suspension.Json
