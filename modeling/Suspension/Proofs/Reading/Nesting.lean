import Suspension.Proofs.Reading.Trees

/-!
# What nests deeper than the reader follows is refused

The reader counts down how many more arrays and objects it may open. `read?_print` says that it
takes back what the writer puts as long as the count lasts; here is the other half, that it takes
nothing where the count runs out (`read?_print_eq_none`). So what the reader follows is known
exactly, and whether the text of a tree is read back is decided by how deep the text nests
(`Node.read_write_eq_none`).

In a list the reader stops at the first item that nests too deep. It has read the items before that
one, so `Refuses` goes along with `ReadsBack` through a list.
-/

namespace Suspension.Json

variable {column bound depth : Nat} {rest : List Char}

/-- Whether the reader takes nothing of what the writer puts for a value, in a text that fits its
bound. -/
def Refuses (bound depth : Nat) (j : Json) : Prop :=
  ∀ column rest, (put column j rest).length ≤ bound →
    readValue bound depth (put column j rest) = none

/-- Where the text goes on with a value that is refused, behind blanks or not, nothing is read. -/
theorem Refuses.readValue {j : Json} (refused : Refuses bound depth j) (plain : j.isPlain)
    {cs : List Char} (text : skipBlanks cs = put column j rest) (long : cs.length ≤ bound) :
    readValue bound depth cs = none := by
  have le : (skipBlanks cs).length ≤ cs.length := (List.dropWhile_suffix _).length_le
  rw [text] at le
  rw [readValue_congr (text.trans (skipBlanks_put plain column rest).symm)]
  exact refused column rest (Nat.le_trans le long)

/-- Nothing is read of a list in which an item is refused, if those before it are taken. -/
theorem readItems_refused {item : Json} {items : List Json} {k column' : Nat} {cs : List Char}
    (plain : ∀ j ∈ item :: items, j.isPlain)
    (each : ∀ j ∈ item :: items, ReadsBack bound depth j ∨ Refuses bound depth j)
    (some : ∃ j ∈ item :: items, Refuses bound depth j)
    (text : skipBlanks cs =
      put column item (putItems column items (putLine column' (']' :: rest))))
    (long : cs.length ≤ k) (le : k ≤ bound) :
    readItems (readValue bound depth) k cs = none := by
  induction items generalizing item k cs with
  | nil =>
    obtain ⟨j, member, refused⟩ := some
    obtain rfl := List.mem_singleton.1 member
    have first := refused.readValue (plain j List.mem_cons_self) text (by omega)
    cases k with
    | zero => rfl
    | succ k => simp only [readItems, first]
  | cons next items ih =>
    have shown := plain item List.mem_cons_self
    cases k with
    | zero => rfl
    | succ k =>
      rcases each item List.mem_cons_self with back | refused
      · have first := back.readValue shown text (by omega) endsNumber_putItems
        have shorter := length_lt_of_put (c := ',') text
        have behind : skipBlanks (putLine column (put column next
            (putItems column items (putLine column' (']' :: rest))))) =
              put column next (putItems column items (putLine column' (']' :: rest))) :=
          skipBlanks_putLine.trans (skipBlanks_put (plain next (by simp)) _ _)
        -- The refused item comes later, for this one is read.
        have later : ∃ j ∈ next :: items, Refuses bound depth j := by
          obtain ⟨j, member, refused⟩ := some
          rcases List.mem_cons.1 member with rfl | member
          · rw [refused.readValue shown text (by omega)] at first
            cases first
          · exact ⟨j, member, refused⟩
        have tail := ih (k := k) (fun j member ↦ plain j (List.mem_cons_of_mem _ member))
          (fun j member ↦ each j (List.mem_cons_of_mem _ member)) later behind (by omega) (by omega)
        simp only [readItems, first, putItems, skipBlanks_cons (show isBlank ',' = false by decide),
          tail, Option.map_none]
      · simp only [readItems, refused.readValue shown text (by omega)]

/-- Nothing is read of a record in which a member is refused, if those before it are taken. -/
theorem readMembers_refused {m : String × Json} {members : List (String × Json)} {k column' : Nat}
    {cs : List Char} (plain : ∀ m' ∈ m :: members, m'.2.isPlain)
    (each : ∀ m' ∈ m :: members, ReadsBack bound depth m'.2 ∨ Refuses bound depth m'.2)
    (some : ∃ m' ∈ m :: members, Refuses bound depth m'.2)
    (text : skipBlanks cs = putString m.1 (':' :: ' ' ::
      put column m.2 (putMembers column members (putLine column' ('\x7d' :: rest)))))
    (long : cs.length ≤ k) (le : k ≤ bound) :
    readMembers (readValue bound depth) k cs = none := by
  have colon (cs : List Char) : skipBlanks (':' :: cs) = ':' :: cs := skipBlanks_cons rfl cs
  have behind (rest : List Char) : skipBlanks (' ' :: put column m.2 rest) = put column m.2 rest :=
    skipBlanks_put (plain m List.mem_cons_self) column rest
  induction members generalizing m k cs with
  | nil =>
    obtain ⟨m', member, refused⟩ := some
    obtain rfl := List.mem_singleton.1 member
    obtain ⟨shorter, -⟩ := length_lt_of_putString text
    have value := refused.readValue (plain m' List.mem_cons_self) (behind _)
      (Nat.le_trans shorter.le (by omega))
    obtain ⟨k, rfl⟩ : ∃ k', k = k' + 1 := ⟨k - 1, by omega⟩
    simp only [readMembers, text, putString, readString_name, colon, value]
  | cons next members ih =>
    have shown := plain m List.mem_cons_self
    obtain ⟨shorter, shorter'⟩ := length_lt_of_putString text
    rw [putMembers, List.length_cons] at shorter'
    obtain ⟨k, rfl⟩ : ∃ k', k = k' + 1 := ⟨k - 1, by omega⟩
    rcases each m List.mem_cons_self with back | refused
    · have value := back.readValue shown (behind _) (Nat.le_trans shorter.le (by omega))
        endsNumber_putMembers
      have comma (cs : List Char) : skipBlanks (',' :: cs) = ',' :: cs := skipBlanks_cons rfl cs
      have next' : skipBlanks (putLine column (putString next.1 (':' :: ' ' ::
          put column next.2 (putMembers column members (putLine column' ('\x7d' :: rest)))))) =
            putString next.1 (':' :: ' ' :: put column next.2
              (putMembers column members (putLine column' ('\x7d' :: rest)))) :=
        skipBlanks_putLine
      -- The refused member comes later, for this one is read.
      have later : ∃ m' ∈ next :: members, Refuses bound depth m'.2 := by
        obtain ⟨m', member, refused⟩ := some
        rcases List.mem_cons.1 member with rfl | member
        · rw [refused.readValue shown (behind _) (Nat.le_trans shorter.le (by omega))] at value
          cases value
        · exact ⟨m', member, refused⟩
      have tail := ih (k := k) (fun m member ↦ plain m (List.mem_cons_of_mem _ member))
        (fun m member ↦ each m (List.mem_cons_of_mem _ member)) later next' (by omega) (by omega)
        (skipBlanks_put (plain next (by simp)) column)
      simp only [readMembers, text, putString, readString_name, colon, value]
      simp only [putMembers, comma, tail, Option.map_none]
    · have value := refused.readValue shown (behind _) (Nat.le_trans shorter.le (by omega))
      simp only [readMembers, text, putString, readString_name, colon, value]

/-- A value opens with its bracket, and where no more may be opened, nothing is read. -/
theorem readValue_shut {c : Char} {cs : List Char} (opens : c = '[' ∨ c = '\x7b') :
    readValue bound 0 (c :: cs) = none := by
  unfold readValue
  rcases opens with rfl | rfl
  · rw [skipBlanks_cons (by decide)]
    rfl
  · rw [skipBlanks_cons (by decide)]
    rfl

/-- A list that nests too deep holds a value that nests too deep for what is left inside it. -/
theorem exists_deeper {α : Type} {f : α → Nat} {as : List α} {d : Nat}
    (deeper : ¬∃ d', d + 1 = d' + 1 ∧ ∀ a ∈ as, f a ≤ d') : ∃ a ∈ as, d < f a := by
  by_contra none
  exact deeper ⟨d, rfl, fun a member ↦ Nat.not_lt.1 fun lt ↦ none ⟨a, member, lt⟩⟩

/-- Nothing is read of a value that nests deeper than the reader follows. -/
theorem readValue_refused {j : Json} (plain : j.isPlain) {depth : Nat} (deep : depth < j.depth) :
    Refuses bound depth j := by
  induction j using induction generalizing depth with
  | null => exact absurd deep (Nat.not_lt_zero _)
  | bool => exact absurd deep (Nat.not_lt_zero _)
  | int => exact absurd deep (Nat.not_lt_zero _)
  | real => exact absurd deep (Nat.not_lt_zero _)
  | str => exact absurd deep (Nat.not_lt_zero _)
  | arr items ih =>
    rw [isPlain_arr] at plain
    intro column rest long
    cases depth with
    | zero => cases items <;> exact readValue_shut (.inl rfl)
    | succ depth =>
      obtain ⟨j, member, deeper⟩ := exists_deeper fun h ↦
        Nat.not_lt.2 (depth_arr_le.2 h) deep
      -- Items that nest deep enough are refused by induction, the others are read back.
      have each : ∀ j ∈ items, ReadsBack bound depth j ∨ Refuses bound depth j := fun j member ↦
        (Nat.lt_or_ge depth j.depth).symm.imp (readValue_put (plain j member))
          (ih j member (plain j member))
      have some : ∃ j ∈ items, Refuses bound depth j :=
        ⟨j, member, ih j member (plain j member) deeper⟩
      cases items with
      | nil => cases member
      | cons item items =>
        have shown := plain item List.mem_cons_self
        obtain ⟨c, cs, first, -, opened⟩ := put_cons shown (column + 2)
          (putItems (column + 2) items (putLine column (']' :: rest)))
        have text := skipBlanks_put shown (column + 2)
          (putItems (column + 2) items (putLine column (']' :: rest)))
        have behind := (suffix_putLine (column + 2) (put (column + 2) item
          (putItems (column + 2) items (putLine column (']' :: rest))))).length_le
        rw [put, List.length_cons] at long
        have list := readItems_refused plain each some text (Nat.le_trans behind (by omega))
          (Nat.le_refl bound)
        rw [first] at list
        rw [put, readValue_array ((skipBlanks_putLine.trans text).trans first) opened, list,
          Option.map_none]
  | obj members ih =>
    rw [isPlain_obj] at plain
    intro column rest long
    cases depth with
    | zero => cases members <;> exact readValue_shut (.inr rfl)
    | succ depth =>
      obtain ⟨m, member, deeper⟩ := exists_deeper fun h ↦
        Nat.not_lt.2 (depth_obj_le.2 h) deep
      have each : ∀ m ∈ members, ReadsBack bound depth m.2 ∨ Refuses bound depth m.2 :=
        fun m member ↦ (Nat.lt_or_ge depth m.2.depth).symm.imp (readValue_put (plain m member))
          (ih m member (plain m member))
      have some : ∃ m ∈ members, Refuses bound depth m.2 :=
        ⟨m, member, ih m member (plain m member) deeper⟩
      cases members with
      | nil => cases member
      | cons m members =>
        have behind := (suffix_putLine (column + 2) (putString m.1 (':' :: ' ' ::
          put (column + 2) m.2 (putMembers (column + 2) members
            (putLine column ('\x7d' :: rest)))))).length_le
        rw [put, List.length_cons] at long
        have list := readMembers_refused plain each some (skipBlanks_cons (by decide) _)
          (Nat.le_trans behind (by omega)) (Nat.le_refl bound)
        rw [put, readValue_object skipBlanks_putLine, list, Option.map_none]

/-- **The reader refuses what the writer puts** for a value that nests deeper than it follows. -/
theorem read?_print_eq_none {j : Json} (plain : j.isPlain) (deep : nestingLimit < j.depth) :
    read? j.print = none := by
  have refused := readValue_refused plain deep 0 [] (Nat.le_succ (put 0 j []).length)
  rw [read?, print, String.toList_ofList]
  simp only [refused]

end Suspension.Json

namespace Suspension.Node

/-- A text that holds no value is read as no tree. -/
theorem read_eq_none {text : String} (refused : Json.read? text = none) (supply : Supply) :
    read text supply = none := by
  rw [read, refused]
  rfl

/-- The text of a tree that nests deeper than the reader follows is refused. -/
theorem read_write_eq_none {n : Node} (deep : Json.nestingLimit < n.toJson.depth)
    (supply : Supply) : read n.write supply = none :=
  read_eq_none (Json.read?_print_eq_none n.isPlain_toJson deep) supply

end Suspension.Node
