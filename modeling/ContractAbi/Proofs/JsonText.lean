import ContractAbi.Json.Read
import Mathlib.Data.List.TakeWhile

/-!
JSON text is read back. What a value is written as ends by itself, so it is read with anything after
it, and a list of values is read with each of them in turn.
-/

namespace ContractAbi.Json

section Texts

variable {c e : Char} {cs rest : List Char}

/-- What is read if a character stands before it. -/
def withChar (c : Char) (read : Option (List Unit16 × List Char)) :
    Option (List Unit16 × List Char) :=
  read.map fun r => (.char c :: r.1, r.2)

theorem readUnits?_simple (h : simpleEscape? e = some c) (hu : e ≠ 'u') :
    readUnits? ('\\' :: e :: rest) = withChar c (readUnits? rest) := by
  rw [readUnits?, h, withChar, Option.map_eq_bind]
  · rfl
  · intro a b c d _ he
    exact absurd he hu

theorem hex4?_hexByte : ∀ n < 0x20,
    hex4? '0' '0' (Nat.digitChar (n / 16)) (Nat.digitChar (n % 16)) = some n := by
  decide

theorem readUnits?_control (h : c.toNat < 0x20) :
    readUnits? ('\\' :: 'u' :: '0' :: '0' :: hexByte c.toNat ++ rest) =
      withChar c (readUnits? rest) := by
  have hunit : Unit16.ofNat c.toNat = .char c := by
    rw [Unit16.ofNat, if_neg (by omega), if_neg (by omega), Char.ofNat_toNat]
  rw [hexByte, List.cons_append, List.cons_append, List.cons_append, List.cons_append,
    List.cons_append, List.cons_append, List.nil_append, readUnits?, hex4?_hexByte _ h, withChar,
    Option.map_eq_bind, Option.bind_eq_bind, Option.bind_some, hunit]
  rfl

theorem readUnits?_self (h : 0x20 ≤ c.toNat) (hq : c ≠ '"') (hb : c ≠ '\\') :
    readUnits? (c :: rest) = withChar c (readUnits? rest) := by
  rw [readUnits?, if_neg (by omega), withChar, Option.map_eq_bind]
  · rfl
  · exact hq
  · intro a b c d rest hc
    exact absurd hc hb
  · intro e rest hc
    exact absurd hc hb

theorem readUnits?_escapeChar (c : Char) (rest : List Char) :
    readUnits? (escapeChar c ++ rest) = withChar c (readUnits? rest) := by
  unfold escapeChar
  split
  iterate 7 next => exact readUnits?_simple rfl (by decide)
  next hq hb _ _ _ _ _ =>
    split
    next h => exact readUnits?_control h
    next h => exact readUnits?_self (by omega) hq hb

theorem readUnits?_escaped (cs rest : List Char) :
    readUnits? (cs.flatMap escapeChar ++ '"' :: rest) = some (cs.map .char, rest) := by
  induction cs with
  | nil => rfl
  | cons c cs ih =>
    rw [List.flatMap_cons, List.append_assoc, readUnits?_escapeChar, ih]
    rfl

theorem joinUnits_map_char (cs : List Char) : joinUnits (cs.map .char) = some cs := by
  induction cs with
  | nil => rfl
  | cons c cs ih =>
    rw [List.map_cons, joinUnits, ih]
    rfl

theorem readText?_escaped (s : String) (rest : List Char) :
    readText? (s.toList.flatMap escapeChar ++ '"' :: rest) = some (some s, rest) := by
  rw [readText?, readUnits?_escaped, Option.bind_eq_bind, Option.bind_some]
  dsimp only
  rw [joinUnits_map_char, Option.map_some, String.ofList_toList]
  rfl

end Texts

mutual

/-- There is no number in the value. -/
def Unnumbered : Json → Prop
  | num _ => False
  | arr items => ItemsUnnumbered items
  | obj members => MembersUnnumbered members
  | _ => True

def ItemsUnnumbered : List Json → Prop
  | [] => True
  | j :: rest => j.Unnumbered ∧ ItemsUnnumbered rest

def MembersUnnumbered : List (String × Json) → Prop
  | [] => True
  | (_, j) :: rest => j.Unnumbered ∧ MembersUnnumbered rest

end

section Values

variable {rest : List Char} {fuel : Nat}

theorem skipSpace_cons {c : Char} (h : isSpace c = false) : skipSpace (c :: rest) = c :: rest :=
  List.dropWhile_cons_of_neg (by simp [h])

/-- A value without numbers begins with a character that neither ends a list nor is skipped. -/
theorem exists_chars_cons : (j : Json) → j.Unnumbered →
    ∃ c cs, j.chars = c :: cs ∧ isSpace c = false ∧ c ≠ ']'
  | null, _ => ⟨_, _, rfl, by decide, by decide⟩
  | bool true, _ => ⟨_, _, rfl, by decide, by decide⟩
  | bool false, _ => ⟨_, _, rfl, by decide, by decide⟩
  | str _, _ => ⟨_, _, rfl, by decide, by decide⟩
  | arr _, _ => ⟨_, _, rfl, by decide, by decide⟩
  | obj _, _ => ⟨_, _, rfl, by decide, by decide⟩

theorem intercalate_comma_cons (cs : List Char) {more : List (List Char)} (h : more ≠ []) :
    [','].intercalate (cs :: more) = cs ++ ',' :: [','].intercalate more := by
  obtain ⟨next, more, rfl⟩ := List.exists_cons_of_ne_nil h
  rw [List.intercalate_cons_cons]
  simp

theorem exists_intercalate_cons (cs : List Char) (more : List (List Char)) :
    ∃ tail, [','].intercalate (cs :: more) = cs ++ tail := by
  by_cases h : more = []
  · exact ⟨[], by rw [h, List.intercalate_singleton, List.append_nil]⟩
  · exact ⟨_, intercalate_comma_cons cs h⟩

theorem exists_items_cons {j : Json} (h : j.Unnumbered) (items : List Json) :
    ∃ c cs, [','].intercalate (charsItems (j :: items)) = c :: cs ∧ isSpace c = false ∧
      c ≠ ']' := by
  obtain ⟨c, cs, hc, hs, hne⟩ := exists_chars_cons j h
  obtain ⟨tail, ht⟩ := exists_intercalate_cons j.chars (charsItems items)
  exact ⟨c, cs ++ tail, by rw [charsItems, ht, hc, List.cons_append], hs, hne⟩

theorem exists_members_cons (m : String × Json) (members : List (String × Json)) :
    ∃ cs, [','].intercalate (charsMembers (m :: members)) = '"' :: cs := by
  obtain ⟨tail, ht⟩ := exists_intercalate_cons (quoted m.1 ++ ':' :: m.2.chars)
    (charsMembers members)
  exact ⟨_, ht⟩

theorem readValue?_items {c : Char} {cs : List Char} (hs : isSpace c = false) (hc : c ≠ ']') :
    readValue? (fuel + 1) ('[' :: c :: cs) =
      (readItems? fuel (c :: cs)).map fun r => (.arr r.1, r.2) := by
  rw [readValue?, skipSpace_cons (by decide)]
  simp only [skipSpace_cons hs]
  split
  next h => exact absurd (List.cons.inj h).1 hc
  next => rfl

theorem readValue?_members (cs : List Char) :
    readValue? (fuel + 1) ('\x7b' :: '"' :: cs) =
      (readMembers? fuel ('"' :: cs)).map fun r => (.obj r.1, r.2) := rfl

theorem readMember?_quoted (key : String) (rest : List Char) :
    readMember? (fuel + 1) (quoted key ++ ':' :: rest) =
      (readValue? fuel rest).map fun r => ((some key, r.1), r.2) := by
  have htext := readText?_escaped key (':' :: rest)
  change (readText? ((key.toList.flatMap escapeChar ++ ['"']) ++ ':' :: rest) >>= _) = _
  rw [List.append_assoc, List.singleton_append, htext, Option.map_eq_bind]
  rfl

mutual

/-- What a value is written as is read, whatever follows. -/
theorem readValue?_chars :
    (j : Json) → j.Unnumbered → (fuel : Nat) → 3 * j.chars.length ≤ fuel → (rest : List Char) →
      readValue? fuel (j.chars ++ rest) = some (j.toSource, rest)
  | null, _, fuel + 1, _, _ => rfl
  | bool true, _, fuel + 1, _, _ => rfl
  | bool false, _, fuel + 1, _, _ => rfl
  | str s, _, fuel + 1, _, rest => by
    change (readText? ((s.toList.flatMap escapeChar ++ ['"']) ++ rest)).map _ = _
    rw [List.append_assoc, List.singleton_append, readText?_escaped s rest]
    rfl
  | arr [], _, fuel + 1, _, rest => rfl
  | arr (j :: items), h, fuel + 1, hf, rest => by
    obtain ⟨c, cs, hc, hs, hne⟩ := exists_items_cons h.1 items
    have hread := readItems?_chars (j :: items) (List.cons_ne_nil _ _) h fuel (by
      rw [chars, List.cons_append, List.length_cons, List.length_append] at hf
      omega) rest
    rw [chars, List.append_assoc, List.cons_append, List.singleton_append, hc, List.cons_append,
      readValue?_items hs hne, ← List.cons_append, ← hc, hread]
    rfl
  | obj [], _, fuel + 1, _, rest => rfl
  | obj (m :: members), h, fuel + 1, hf, rest => by
    obtain ⟨cs, hc⟩ := exists_members_cons m members
    have hread := readMembers?_chars (m :: members) (List.cons_ne_nil _ _) h fuel (by
      rw [chars, List.cons_append, List.length_cons, List.length_append] at hf
      omega) rest
    rw [chars, List.append_assoc, List.cons_append, List.singleton_append, hc, List.cons_append,
      readValue?_members, ← List.cons_append, ← hc, hread]
    rfl
  | j, h, 0, hf, _ => by
    obtain ⟨c, cs, hc, -⟩ := exists_chars_cons j h
    rw [hc] at hf
    cases hf

theorem readItems?_chars :
    (items : List Json) → items ≠ [] → ItemsUnnumbered items → (fuel : Nat) →
      3 * ([','].intercalate (charsItems items)).length + 1 ≤ fuel → (rest : List Char) →
        readItems? fuel ([','].intercalate (charsItems items) ++ ']' :: rest) =
          some (toSourceItems items, rest)
  | [j], _, h, fuel + 1, hf, rest => by
    rw [charsItems, charsItems, List.intercalate_singleton] at hf ⊢
    rw [readItems?, readValue?_chars j h.1 fuel (by omega)]
    rfl
  | j :: k :: items, _, h, fuel + 1, hf, rest => by
    rw [charsItems, intercalate_comma_cons _ (by simp [charsItems])] at hf ⊢
    rw [List.length_append, List.length_cons] at hf
    rw [List.append_assoc, List.cons_append, readItems?, readValue?_chars j h.1 fuel (by omega)]
    have hrest := readItems?_chars (k :: items) (List.cons_ne_nil _ _) h.2 fuel (by omega) rest
    change (readItems? fuel _ >>= _) = _
    rw [hrest]
    rfl

theorem readMembers?_chars :
    (members : List (String × Json)) → members ≠ [] → MembersUnnumbered members → (fuel : Nat) →
      3 * ([','].intercalate (charsMembers members)).length + 1 ≤ fuel → (rest : List Char) →
        readMembers? fuel ([','].intercalate (charsMembers members) ++ '\x7d' :: rest) =
          some (toSourceMembers members, rest)
  | [(key, j)], _, h, fuel + 2, hf, rest => by
    rw [charsMembers, charsMembers, List.intercalate_singleton] at hf ⊢
    rw [List.length_append, List.length_cons] at hf
    rw [List.append_assoc, List.cons_append, readMembers?, readMember?_quoted,
      readValue?_chars j h.1 fuel (by omega)]
    rfl
  | (key, j) :: m :: members, _, h, fuel + 2, hf, rest => by
    rw [charsMembers, intercalate_comma_cons _ (by simp [charsMembers])] at hf ⊢
    rw [List.length_append, List.length_append, List.length_cons, List.length_cons] at hf
    rw [List.append_assoc, List.append_assoc, List.cons_append, List.cons_append, readMembers?,
      readMember?_quoted, readValue?_chars j h.1 fuel (by omega)]
    have hrest := readMembers?_chars (m :: members) (List.cons_ne_nil _ _) h.2 (fuel + 1)
      (by omega) rest
    change (readMembers? (fuel + 1) _ >>= _) = _
    rw [hrest]
    rfl
  | m :: members, _, _, 1, hf, _ => by
    obtain ⟨cs, hc⟩ := exists_members_cons m members
    rw [hc, List.length_cons] at hf
    omega

end

end Values

/-- The text of a value without numbers is read as the value is written. -/
theorem ofText?_text {j : Json} (h : j.Unnumbered) : Source.ofText? j.text = some j.toSource := by
  have hread := readValue?_chars j h (3 * j.chars.length + 1) (Nat.le_succ _) []
  rw [List.append_nil] at hread
  rw [Source.ofText?, text, String.toList_ofList, Source.ofChars?, hread]
  rfl

end ContractAbi.Json
