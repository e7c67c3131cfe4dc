import ContractAbi.Proofs.JsonGrammar
import Mathlib.Data.List.DropRight

/-!
The JSON reader takes the texts of the grammar and no others. Spaces before a value are skipped by
its reader, and a number ends where spaces or punctuation begin.
-/

namespace ContractAbi.Json

section Spaces

variable {cs rest before after : List Char} {c : Char}

theorem isSpace_of_isDigit (h : c.isDigit = true) : isSpace c = false := by
  apply Bool.eq_false_iff.mpr
  intro hs
  simp only [isSpace, Bool.or_eq_true, beq_iff_eq] at hs
  rcases hs with ((rfl | rfl) | rfl) | rfl <;> cases h

theorem skipSpace_append (h : Spaces before) (cs : List Char) :
    skipSpace (before ++ cs) = skipSpace cs := List.dropWhile_append_of_pos h

theorem exists_spaces (cs : List Char) : ∃ before, Spaces before ∧ cs = before ++ skipSpace cs :=
  ⟨cs.takeWhile isSpace, fun _ hc => List.mem_takeWhile_imp hc,
    List.takeWhile_append_dropWhile.symm⟩

theorem exists_of_skipSpace (h : skipSpace cs = rest) :
    ∃ before, Spaces before ∧ cs = before ++ rest := h ▸ exists_spaces cs

theorem numberEnds_nil : NumberEnds [] := ⟨nofun, nofun, nofun, nofun⟩

theorem numberEnds_cons (h : isSpace c = true ∨ c ∈ [',', ']', '\x7d']) (cs : List Char) :
    NumberEnds (c :: cs) := by
  have hends : ∀ d ∈ [' ', '\t', '\n', '\r', ',', ']', '\x7d'],
      d.isDigit = false ∧ d ≠ '.' ∧ d ≠ 'e' ∧ d ≠ 'E' := by simp
  have hc : c ∈ [' ', '\t', '\n', '\r', ',', ']', '\x7d'] := by
    rcases h with h | h
    · simp only [isSpace, Bool.or_eq_true, beq_iff_eq] at h
      obtain ((rfl | rfl) | rfl) | rfl := h <;> simp
    · exact List.mem_append_right [' ', '\t', '\n', '\r'] h
  obtain ⟨hd, hp, he, hE⟩ := hends c hc
  exact ⟨.cons hd cs, by simpa using hp, by simpa using he, by simpa using hE⟩

theorem NumberEnds.spaces (h : NumberEnds cs) (ha : Spaces after) : NumberEnds (after ++ cs) := by
  cases after with
  | nil => exact h
  | cons c after => exact numberEnds_cons (.inl (ha c (List.mem_cons_self ..))) _

end Spaces

section Values

variable {s : Source} {cs rest before : List Char} {fuel : Nat}

/-- What a value begins with ends no list and is not skipped. -/
theorem Source.WrittenAs.exists_cons (h : s.WrittenAs cs) :
    ∃ c tail, cs = c :: tail ∧ isSpace c = false ∧ c ≠ ']' := by
  cases h with
  | num h =>
    obtain ⟨c, tail, rfl, rfl | hc⟩ := h.exists_cons
    · exact ⟨'-', tail, rfl, by decide, by decide⟩
    · refine ⟨c, tail, rfl, isSpace_of_isDigit hc, ?_⟩
      rintro rfl
      cases hc
  | _ => exact ⟨_, _, rfl, by decide, by decide⟩

theorem skipSpace_skipSpace (cs : List Char) : skipSpace (skipSpace cs) = skipSpace cs :=
  List.dropWhile_idempotent isSpace cs

theorem readValue?_skipSpace (cs : List Char) :
    readValue? fuel (skipSpace cs) = readValue? fuel cs := by
  cases fuel with
  | zero => rw [readValue?, readValue?]
  | succ => rw [readValue?, readValue?, skipSpace_skipSpace]

theorem readItems?_skipSpace (cs : List Char) :
    readItems? fuel (skipSpace cs) = readItems? fuel cs := by
  cases fuel with
  | zero => rw [readItems?, readItems?]
  | succ => rw [readItems?, readItems?, readValue?_skipSpace]

theorem readMember?_skipSpace (cs : List Char) :
    readMember? fuel (skipSpace cs) = readMember? fuel cs := by
  cases fuel with
  | zero => rw [readMember?, readMember?]
  | succ => rw [readMember?, readMember?, skipSpace_skipSpace]

theorem readMembers?_skipSpace (cs : List Char) :
    readMembers? fuel (skipSpace cs) = readMembers? fuel cs := by
  cases fuel with
  | zero => rw [readMembers?, readMembers?]
  | succ => rw [readMembers?, readMembers?, readMember?_skipSpace]

theorem readValue?_spaces (h : Spaces before) (cs : List Char) :
    readValue? fuel (before ++ cs) = readValue? fuel cs := by
  rw [← readValue?_skipSpace, skipSpace_append h, readValue?_skipSpace]

theorem readMember?_spaces (h : Spaces before) (cs : List Char) :
    readMember? fuel (before ++ cs) = readMember? fuel cs := by
  rw [← readMember?_skipSpace, skipSpace_append h, readMember?_skipSpace]

/-- An array that does not end at once has items. -/
theorem readValue?_list (h : ∀ tail, skipSpace cs ≠ ']' :: tail) :
    readValue? (fuel + 1) ('[' :: cs) = (readItems? fuel cs).map fun r => (.arr r.1, r.2) := by
  rw [readValue?, skipSpace_cons (by decide), ← readItems?_skipSpace]
  -- by `h` the list is not an empty one
  simp only

theorem readValue?_object (h : ∀ tail, skipSpace cs ≠ '\x7d' :: tail) :
    readValue? (fuel + 1) ('\x7b' :: cs) =
      (readMembers? fuel cs).map fun r => (.obj r.1, r.2) := by
  rw [readValue?, skipSpace_cons (by decide), ← readMembers?_skipSpace]
  -- by `h` the object is not an empty one
  simp only

theorem readValue?_literal {c : Char} (h : c = '-' ∨ c.isDigit = true) (cs : List Char) :
    readValue? (fuel + 1) (c :: cs) =
      (readLiteral? (c :: cs)).map fun r => (.num r.1.number?, r.2) := by
  have hno (d : Char) (hd : d ∈ ['n', 't', 'f', '"', '[', '\x7b', ' ', '\t', '\n', '\r']) :
      c ≠ d := by
    rintro rfl
    rcases h with rfl | h
    · simp at hd
    · simp only [List.mem_cons, List.not_mem_nil, or_false] at hd
      rcases hd with rfl | rfl | rfl | rfl | rfl | rfl | rfl | rfl | rfl | rfl <;> cases h
  have hspace : isSpace c = false := by
    simp [isSpace, hno]
  rw [readValue?, skipSpace_cons hspace]
  split
  case h_7 => rfl
  all_goals
    next he => exact absurd (List.cons.inj he).1 (hno _ (by simp))

theorem ListWrittenAs.exists_first {α : Type} {WrittenAs : α → List Char → Prop} {xs : List α}
    (h : ListWrittenAs WrittenAs xs cs) :
    ∃ x before first more, cs = before ++ (first ++ more) ∧ Spaces before ∧ WrittenAs x first := by
  cases h with
  | last hb h => exact ⟨_, _, _, _, List.append_assoc .., hb, h⟩
  | @cons x xs before first after more hb h =>
    exact ⟨x, before, first, after ++ ',' :: more, by simp, hb, h⟩

theorem skipSpace_items {items : List Source} (h : ListWrittenAs Source.WrittenAs items cs)
    (rest tail : List Char) : skipSpace (cs ++ rest) ≠ ']' :: tail := by
  obtain ⟨s, before, first, more, rfl, hb, hs⟩ := h.exists_first
  obtain ⟨c, cs, rfl, hspace, hc⟩ := hs.exists_cons
  rw [List.append_assoc, skipSpace_append hb, List.cons_append, List.cons_append,
    skipSpace_cons hspace]
  exact fun he => hc (List.cons.inj he).1

theorem skipSpace_members {members : List (Option String × Source)}
    (h : ListWrittenAs Source.MemberWrittenAs members cs) (rest tail : List Char) :
    skipSpace (cs ++ rest) ≠ '\x7d' :: tail := by
  obtain ⟨m, before, first, more, rfl, hb, hm⟩ := h.exists_first
  obtain ⟨-, -, -, -⟩ := hm
  rw [List.append_assoc, skipSpace_append hb]
  exact fun he => absurd (List.cons.inj he).1 (by decide)

mutual

/-- A value is read wherever it stands, if a number does not go on after it. -/
theorem readValue?_writtenAs (fuel : Nat) {s : Source} {cs rest : List Char} (h : s.WrittenAs cs)
    (hf : 3 * cs.length ≤ fuel) (hr : NumberEnds rest) :
    readValue? fuel (cs ++ rest) = some (s, rest) := by
  cases fuel with
  | zero =>
    obtain ⟨c, tail, rfl, -⟩ := h.exists_cons
    cases hf
  | succ fuel =>
    cases h with
    | null | isTrue | isFalse => rfl
    | num h =>
      obtain ⟨c, tail, rfl, hc⟩ := h.exists_cons
      rw [List.cons_append, readValue?_literal hc, ← List.cons_append, readLiteral?_writtenAs h hr]
      rfl
    | @str _ cs h =>
      change (readText? ((cs ++ ['"']) ++ rest)).map _ = _
      rw [List.append_assoc, List.singleton_append, readText?_writtenAs h]
      rfl
    | @noItems cs h =>
      rw [List.append_assoc, List.cons_append, readValue?, skipSpace_cons (by decide)]
      simp only [skipSpace_append h]
      rfl
    | @items items cs h =>
      rw [List.cons_append, List.length_cons, List.length_append] at hf
      rw [List.append_assoc, List.cons_append, readValue?_list (skipSpace_items h _),
        List.singleton_append, readItems?_writtenAs fuel h (by omega) rest]
      rfl
    | @noMembers cs h =>
      rw [List.append_assoc, List.cons_append, readValue?, skipSpace_cons (by decide)]
      simp only [skipSpace_append h]
      rfl
    | @members members cs h =>
      rw [List.cons_append, List.length_cons, List.length_append] at hf
      rw [List.append_assoc, List.cons_append, readValue?_object (skipSpace_members h _),
        List.singleton_append, readMembers?_writtenAs fuel h (by omega) rest]
      rfl

theorem readItems?_writtenAs (fuel : Nat) {items : List Source} {cs : List Char}
    (h : ListWrittenAs Source.WrittenAs items cs) (hf : 3 * cs.length + 1 ≤ fuel)
    (rest : List Char) : readItems? fuel (cs ++ ']' :: rest) = some (items, rest) := by
  cases fuel with
  | zero => cases hf
  | succ fuel =>
    cases h with
    | @last s before cs after hb hs ha =>
      have hends := (numberEnds_cons (.inr (by simp)) rest : NumberEnds (']' :: rest)).spaces ha
      simp only [List.length_append] at hf
      rw [List.append_assoc, List.append_assoc, readItems?, readValue?_spaces hb,
        readValue?_writtenAs fuel hs (by omega) hends, Option.bind_eq_bind, Option.bind_some]
      dsimp only
      rw [skipSpace_append ha]
      rfl
    | @cons s items before cs after more hb hs ha hmore =>
      have hends := (numberEnds_cons (.inr (by simp)) (more ++ ']' :: rest) :
        NumberEnds (',' :: (more ++ ']' :: rest))).spaces ha
      simp only [List.length_append, List.length_cons] at hf
      rw [List.append_assoc, List.append_assoc, List.append_assoc, List.cons_append, readItems?,
        readValue?_spaces hb, readValue?_writtenAs fuel hs (by omega) hends, Option.bind_eq_bind,
        Option.bind_some]
      dsimp only
      rw [skipSpace_append ha]
      change (readItems? fuel _ >>= _) = _
      rw [readItems?_writtenAs fuel hmore (by omega) rest]
      rfl

theorem readMember?_writtenAs (fuel : Nat) {m : Option String × Source} {cs rest : List Char}
    (h : Source.MemberWrittenAs m cs) (hf : 3 * cs.length ≤ fuel + 2) (hr : NumberEnds rest) :
    readMember? fuel (cs ++ rest) = some (m, rest) := by
  cases h with
  | @mk key s ks before after cs hk hb ha hs =>
    simp only [List.length_append, List.length_cons] at hf
    cases fuel with
    | zero => omega
    | succ fuel =>
      simp only [List.append_assoc, List.cons_append]
      change (readText? (ks ++ '"' :: (before ++ ':' :: (after ++ (cs ++ rest)))) >>= _) = _
      rw [readText?_writtenAs hk, Option.bind_eq_bind, Option.bind_some]
      dsimp only
      rw [skipSpace_append hb]
      change (readValue? fuel _ >>= _) = _
      rw [readValue?_spaces ha, readValue?_writtenAs fuel hs (by omega) hr]
      rfl

theorem readMembers?_writtenAs (fuel : Nat) {members : List (Option String × Source)}
    {cs : List Char} (h : ListWrittenAs Source.MemberWrittenAs members cs)
    (hf : 3 * cs.length + 1 ≤ fuel) (rest : List Char) :
    readMembers? fuel (cs ++ '\x7d' :: rest) = some (members, rest) := by
  cases fuel with
  | zero => cases hf
  | succ fuel =>
    cases h with
    | @last m before cs after hb hm ha =>
      have hends := (numberEnds_cons (.inr (by simp)) rest :
        NumberEnds ('\x7d' :: rest)).spaces ha
      simp only [List.length_append] at hf
      rw [List.append_assoc, List.append_assoc, readMembers?, readMember?_spaces hb,
        readMember?_writtenAs fuel hm (by omega) hends, Option.bind_eq_bind, Option.bind_some]
      dsimp only
      rw [skipSpace_append ha]
      rfl
    | @cons m members before cs after more hb hm ha hmore =>
      have hends := (numberEnds_cons (.inr (by simp)) (more ++ '\x7d' :: rest) :
        NumberEnds (',' :: (more ++ '\x7d' :: rest))).spaces ha
      simp only [List.length_append, List.length_cons] at hf
      rw [List.append_assoc, List.append_assoc, List.append_assoc, List.cons_append, readMembers?,
        readMember?_spaces hb, readMember?_writtenAs fuel hm (by omega) hends,
        Option.bind_eq_bind, Option.bind_some]
      dsimp only
      rw [skipSpace_append ha]
      change (readMembers? fuel _ >>= _) = _
      rw [readMembers?_writtenAs fuel hmore (by omega) rest]
      rfl

end

mutual

/-- What is read for a value is one, with spaces before it. -/
theorem exists_of_readValue? (fuel : Nat) {s : Source} {cs rest : List Char}
    (h : readValue? fuel cs = some (s, rest)) :
    ∃ before first, cs = before ++ first ++ rest ∧ Spaces before ∧ s.WrittenAs first := by
  cases fuel with
  | zero => cases h
  | succ fuel =>
    obtain ⟨before, hb, hcs⟩ := exists_spaces cs
    refine ⟨before, ?_⟩
    rw [readValue?] at h
    rw [hcs]
    split at h
    next he =>
      cases h
      exact ⟨_, by simp [he], hb, .null⟩
    next he =>
      cases h
      exact ⟨_, by simp [he], hb, .isTrue⟩
    next he =>
      cases h
      exact ⟨_, by simp [he], hb, .isFalse⟩
    next he =>
      obtain ⟨⟨text, more⟩, hr, h⟩ := Option.map_eq_some_iff.mp h
      cases h
      obtain ⟨inner, hs, rfl⟩ := exists_of_readText? hr
      exact ⟨_, by simp [he], hb, .str hs⟩
    next tail he =>
      split at h
      next hend =>
        cases h
        obtain ⟨inner, hi, rfl⟩ := exists_of_skipSpace hend
        exact ⟨_, by simp [he], hb, .noItems hi⟩
      next =>
        obtain ⟨⟨items, more⟩, hr, h⟩ := Option.map_eq_some_iff.mp h
        cases h
        rw [readItems?_skipSpace] at hr
        obtain ⟨inner, hi, rfl⟩ := exists_of_readItems? fuel hr
        exact ⟨_, by simp [he], hb, .items hi⟩
    next tail he =>
      split at h
      next hend =>
        cases h
        obtain ⟨inner, hi, rfl⟩ := exists_of_skipSpace hend
        exact ⟨_, by simp [he], hb, .noMembers hi⟩
      next =>
        obtain ⟨⟨members, more⟩, hr, h⟩ := Option.map_eq_some_iff.mp h
        cases h
        rw [readMembers?_skipSpace] at hr
        obtain ⟨inner, hi, rfl⟩ := exists_of_readMembers? fuel hr
        exact ⟨_, by simp [he], hb, .members hi⟩
    next =>
      obtain ⟨⟨l, more⟩, hr, h⟩ := Option.map_eq_some_iff.mp h
      cases h
      obtain ⟨text, hl, he⟩ := exists_of_readLiteral? hr
      exact ⟨text, by rw [he, List.append_assoc], hb, .num hl⟩

theorem exists_of_readItems? (fuel : Nat) {items : List Source} {cs rest : List Char}
    (h : readItems? fuel cs = some (items, rest)) :
    ∃ inner, ListWrittenAs Source.WrittenAs items inner ∧ cs = inner ++ ']' :: rest := by
  cases fuel with
  | zero => cases h
  | succ fuel =>
    rw [readItems?] at h
    obtain ⟨⟨s, more⟩, hr, hnext⟩ := Option.bind_eq_some_iff.mp h
    obtain ⟨before, first, rfl, hb, hs⟩ := exists_of_readValue? fuel hr
    dsimp only at hnext
    split at hnext
    next hend =>
      obtain ⟨⟨items, more'⟩, hlist, hread⟩ := Option.bind_eq_some_iff.mp hnext
      cases hread
      obtain ⟨after, ha, rfl⟩ := exists_of_skipSpace hend
      obtain ⟨inner, hi, rfl⟩ := exists_of_readItems? fuel hlist
      exact ⟨_, .cons hb hs ha hi, by simp⟩
    next hend =>
      cases hnext
      obtain ⟨after, ha, rfl⟩ := exists_of_skipSpace hend
      exact ⟨_, .last hb hs ha, by simp⟩
    next => cases hnext

theorem exists_of_readMember? (fuel : Nat) {m : Option String × Source} {cs rest : List Char}
    (h : readMember? fuel cs = some (m, rest)) :
    ∃ before first, cs = before ++ first ++ rest ∧ Spaces before ∧
      Source.MemberWrittenAs m first := by
  cases fuel with
  | zero => cases h
  | succ fuel =>
    obtain ⟨before, hb, hcs⟩ := exists_spaces cs
    rw [readMember?] at h
    split at h
    next tail he =>
      obtain ⟨⟨key, more⟩, hk, hnext⟩ := Option.bind_eq_some_iff.mp h
      obtain ⟨ks, hkey, rfl⟩ := exists_of_readText? hk
      dsimp only at hnext
      split at hnext
      next hcolon =>
        obtain ⟨⟨s, more'⟩, hr, hread⟩ := Option.bind_eq_some_iff.mp hnext
        cases hread
        obtain ⟨left, hl, rfl⟩ := exists_of_skipSpace hcolon
        obtain ⟨right, first, rfl, hright, hs⟩ := exists_of_readValue? fuel hr
        exact ⟨before, _, by rw [hcs, he]; simp, hb, .mk hkey hl hright hs⟩
      next => cases hnext
    next => cases h

theorem exists_of_readMembers? (fuel : Nat) {members : List (Option String × Source)}
    {cs rest : List Char} (h : readMembers? fuel cs = some (members, rest)) :
    ∃ inner, ListWrittenAs Source.MemberWrittenAs members inner ∧
      cs = inner ++ '\x7d' :: rest := by
  cases fuel with
  | zero => cases h
  | succ fuel =>
    rw [readMembers?] at h
    obtain ⟨⟨m, more⟩, hr, hnext⟩ := Option.bind_eq_some_iff.mp h
    obtain ⟨before, first, rfl, hb, hm⟩ := exists_of_readMember? fuel hr
    dsimp only at hnext
    split at hnext
    next hend =>
      obtain ⟨⟨members, more'⟩, hlist, hread⟩ := Option.bind_eq_some_iff.mp hnext
      cases hread
      obtain ⟨after, ha, rfl⟩ := exists_of_skipSpace hend
      obtain ⟨inner, hi, rfl⟩ := exists_of_readMembers? fuel hlist
      exact ⟨_, .cons hb hm ha hi, by simp⟩
    next hend =>
      cases hnext
      obtain ⟨after, ha, rfl⟩ := exists_of_skipSpace hend
      exact ⟨_, .last hb hm ha, by simp⟩
    next => cases hnext

end

/-- The reader takes the texts of the grammar and no others. -/
theorem Source.ofText?_eq_some_iff {s : Source} {text : String} :
    Source.ofText? text = some s ↔ s.TextIs text := by
  rw [Source.ofText?, Source.ofChars?, Option.bind_eq_bind, Option.bind_eq_some_iff]
  constructor
  · rintro ⟨⟨s', rest⟩, hr, h⟩
    dsimp only at h
    split at h
    next hend =>
      cases h
      obtain ⟨before, first, hcs, hb, hs⟩ := exists_of_readValue? _ hr
      obtain ⟨after, ha, rfl⟩ := exists_of_skipSpace (List.isEmpty_iff.mp hend)
      exact ⟨before, first, after, by rw [hcs, List.append_nil], hb, hs, ha⟩
    next => cases h
  · rintro ⟨before, first, after, hcs, hb, hs, ha⟩
    have hends : NumberEnds after := by
      have h := numberEnds_nil.spaces ha
      rwa [List.append_nil] at h
    have hskip : skipSpace after = [] := by
      rw [← List.append_nil after, skipSpace_append ha]
      rfl
    refine ⟨(s, after), ?_, ?_⟩
    · rw [hcs, List.append_assoc, readValue?_spaces hb]
      exact readValue?_writtenAs _ hs (by simp only [List.length_append]; omega) hends
    · dsimp only
      rw [hskip]
      rfl

end Values

end ContractAbi.Json
