import ContractAbi.Proofs.Language
import ContractAbi.Proofs.Stretch

/-!
The lexer accepts the texts of its language and no others. What it accepts makes up a stretch, which
has all that the language asks for; and what is left of a text of the language makes up stretches,
one more than there are groups open.
-/

namespace ContractAbi

open Piece
open Item (CommaFree commaFree_nil commaFree_append)

variable {c : Char} {cs xs ys inner rest w s : List Char} {d : Nat} {listed : Bool}

theorem notMem_of_forall {p : Char → Bool} {marks : List Char} (h : ∀ c ∈ cs, p c = true)
    (hm : marks.any p = false) : ∀ m ∈ marks, m ∉ cs :=
  fun m hmarks hc => List.any_eq_false.mp hm m hmarks (h m hc)

namespace Text

theorem permitted_of_isWordChar (h : isWordChar c = true) : Permitted c := by
  simp only [isWordChar, Char.isAlphanum, Bool.or_eq_true, beq_iff_eq] at h
  rcases h with ((h | h) | rfl) | rfl
  · exact .inr (.inl h)
  · exact .inr (.inr (.inl h))
  · exact .inr (.inr (.inr (by decide)))
  · exact .inr (.inr (.inr (by decide)))

theorem Permitted.cases (h : Permitted c) :
    isBlank c = true ∨ isWordChar c = true ∨ c ∈ ['(', ')', '[', ']', ',', '@'] := by
  obtain h | h | h | h := h
  · exact .inl h
  · exact .inr (.inl (by simp [isWordChar, Char.isAlphanum, h]))
  · exact .inr (.inl (isWordChar_of_isDigit h))
  · simp only [List.mem_cons] at h ⊢
    rcases h with rfl | rfl | h
    · exact .inr (.inl (by decide))
    · exact .inr (.inl (by decide))
    · exact .inr (.inr h)

theorem formed_of_blank (h : isBlank c = true) : Formed [c] := by
  have hall : ∀ d ∈ [c], isBlank d = true := List.forall_mem_singleton.mpr h
  exact .of_plain (fun d hd => .inl (hall d hd)) (notMem_of_forall hall (by decide))

theorem formed_of_word (h : ∀ c ∈ w, isWordChar c = true) : Formed w := by
  exact .of_plain (fun c hc => permitted_of_isWordChar (h c hc)) (notMem_of_forall h (by decide))

end Text

namespace Lexeme

variable {offset : Nat} {n : Lexeme}

theorem kindOfWord_ne_number (text : String) : kindOfWord text ≠ .number := by
  unfold kindOfWord
  split
  · exact nofun
  · split <;> exact nofun

theorem ofRun_eq_nil (h : ofRun w offset = []) : w = [] := by
  obtain ⟨hd, hl⟩ := List.append_eq_nil_iff.mp h
  rw [← List.takeWhile_append_dropWhile (p := Char.isDigit) (l := w)]
  simp_all

theorem ofRun_digits (hne : w ≠ []) (h : ∀ c ∈ w, c.isDigit = true) :
    ofRun w offset = [number w offset] := by
  have htake : w.takeWhile Char.isDigit = w := List.takeWhile_eq_self_iff.mpr h
  have hdrop : w.dropWhile Char.isDigit = [] := List.dropWhile_eq_nil_iff.mpr h
  rw [ofRun, htake, hdrop]
  simp [hne]

/-- A run with the one lexeme that a number is consists of its digits. -/
theorem ofRun_eq_number (h : ofRun w offset = [n]) (hk : n.kind = .number) :
    (∀ c ∈ w, c.isDigit = true) ∧ n = number w offset := by
  have hne : w ≠ [] := by
    rintro rfl
    cases h
  have hd : ∀ c ∈ w, c.isDigit = true := by
    -- a letter in the run would make a word, alone or after the number
    by_contra hno
    have hl : w.dropWhile Char.isDigit ≠ [] := fun hl => hno (List.dropWhile_eq_nil_iff.mp hl)
    simp only [ofRun, List.isEmpty_iff, if_neg hl] at h
    obtain ⟨-, hs⟩ | ⟨-, hs⟩ := List.append_eq_singleton_iff.mp h
    · obtain rfl := (List.cons.inj hs).1
      exact kindOfWord_ne_number _ hk
    · cases hs
  rw [ofRun_digits hne hd] at h
  exact ⟨hd, (List.cons.inj h).1.symm⟩

end Lexeme

namespace Stretch

variable {start openAt closeAt : Nat} {ps qs : List Piece} {items : List Item} {n l : Lexeme}
  {ls : List Lexeme}

theorem blank_of_nil (h : Stretch start ps items) (he : items = []) :
    ∀ c ∈ ps.flatMap chars, Text.isBlank c = true := by
  induction h with
  | nil => exact nofun
  | blank _ hc ih =>
    rw [List.flatMap_append, List.forall_mem_append]
    exact ⟨ih he, List.forall_mem_singleton.mpr hc⟩
  | run _ w ih =>
    obtain ⟨hi, hr⟩ := List.append_eq_nil_iff.mp he
    obtain rfl := Lexeme.ofRun_eq_nil (List.map_eq_nil_iff.mp hr)
    simpa [chars] using ih hi
  | _ => simp at he

/-- Around a number there are blanks only. -/
theorem digits_of_number (h : Stretch start ps items) (he : items = [.single n])
    (hk : n.kind = .number) :
    ∃ before digits after, ps.flatMap chars = before ++ digits ++ after ∧
      (∀ c ∈ before, Text.isBlank c = true) ∧ (∀ c ∈ digits, c.isDigit = true) ∧
        n = Lexeme.number digits n.offset ∧ ∀ c ∈ after, Text.isBlank c = true := by
  induction h with
  | nil => cases he
  | @blank _ c _ _ _ hc ih =>
    obtain ⟨before, digits, after, hps, hb, hd, hv, ha⟩ := ih he
    refine ⟨before, digits, after ++ [c], ?_, hb, hd, hv, ?_⟩
    · rw [List.flatMap_append, hps, List.append_assoc]
      rfl
    · exact List.forall_mem_append.mpr ⟨ha, List.forall_mem_singleton.mpr hc⟩
  | @run start ps _ h w ih =>
    obtain ⟨hi, hr⟩ | ⟨hi, hr⟩ := List.append_eq_singleton_iff.mp he
    · obtain ⟨m, hm, hs⟩ := List.map_eq_singleton_iff.mp hr
      obtain rfl := Item.single.inj hs
      obtain ⟨hd, rfl⟩ := Lexeme.ofRun_eq_number hm hk
      exact ⟨_, w, [], by simp [chars], h.blank_of_nil hi, hd, rfl, nofun⟩
    · obtain rfl := Lexeme.ofRun_eq_nil (List.map_eq_nil_iff.mp hr)
      simpa [chars] using ih hi
  | atSign =>
    obtain ⟨-, hs⟩ | ⟨-, hs⟩ := List.append_eq_singleton_iff.mp he
    · obtain rfl := Item.single.inj (List.cons.inj hs).1
      cases hk
    · cases hs
  | bracket _ _ hl =>
    obtain ⟨-, hs⟩ | ⟨-, hs⟩ := List.append_eq_singleton_iff.mp he
    · obtain rfl := Item.single.inj (List.cons.inj hs).1
      rw [(Lexer.kind_arraySuffix hl).1] at hk
      cases hk
    · cases hs
  | _ => simp [List.append_eq_singleton_iff] at he

/-- What the lexer takes for an array suffix is one. -/
theorem arraySuffix (h : Stretch start qs (ls.map .single))
    (hl : Lexer.arraySuffix ⟨openAt, ls.reverse⟩ closeAt = .ok l) :
    Text.ArraySuffix ('[' :: qs.flatMap chars ++ [']']) := by
  obtain ⟨-, he | ⟨n, length, he, hk, hv⟩⟩ := Lexer.kind_arraySuffix hl
  · obtain rfl := List.reverse_eq_nil_iff.mp he
    have hnone : ∀ c ∈ ([] : List Char), c.isDigit = true := nofun
    have hafter : ∀ c ∈ ([] : List Char), Text.isBlank c = true := nofun
    simpa using Text.ArraySuffix.mk (h.blank_of_nil rfl) hnone (by decide) hafter
  · obtain rfl : ls = [n] := by simpa using congrArg List.reverse he
    obtain ⟨before, digits, after, hqs, hb, hd, hn, ha⟩ := h.digits_of_number rfl hk
    have hword : (Text.word64? digits).isSome := by
      rw [hn] at hv
      exact Option.isSome_of_eq_some hv
    rw [hqs]
    exact .mk hb hd (Text.isSome_word64?_iff.mp hword).2.2 ha

/-- A stretch with words for its runs looks like a part of a text of the language. -/
theorem formed (h : Stretch start ps items)
    (hw : ∀ w, .run w ∈ ps → ∀ c ∈ w, isWordChar c = true) :
    Text.Formed (ps.flatMap chars) := by
  induction h with
  | nil => exact .of_plain nofun nofun
  | blank _ hc ih =>
    rw [List.flatMap_append]
    exact (ih fun w h => hw w (List.mem_append_left _ h)).append (Text.formed_of_blank hc)
  | run _ w ih =>
    rw [List.flatMap_append]
    refine (ih fun w h => hw w (List.mem_append_left _ h)).append ?_
    simpa [chars] using Text.formed_of_word (hw w (by simp))
  | atSign _ ih | comma _ ih =>
    rw [List.flatMap_append]
    refine (ih fun w h => hw w (List.mem_append_left _ h)).append ?_
    exact .of_plain (by simp [chars, Text.Permitted]) (by simp [chars])
  | @bracket _ ps qs _ _ _ _ hi hl ih _ =>
    have hs := Text.Formed.of_arraySuffix (hi.arraySuffix hl)
    have h := (ih fun w h => hw w (by simp [h])).append hs
    simpa [chars] using h
  | group _ _ ih ihi =>
    have h := (ih fun w h => hw w (by simp [h])).append (ihi fun w h => hw w (by simp [h])).group
    simpa [chars] using h

/-- A comma that is not among the items of a stretch is inside of one of its groups. -/
theorem commasGrouped (h : Stretch start ps items)
    (hw : ∀ w, .run w ∈ ps → ∀ c ∈ w, isWordChar c = true) (hc : CommaFree items) :
    Text.CommasGrouped (ps.flatMap chars) := by
  induction h with
  | nil => exact .of_notMem nofun
  | @blank _ c _ _ _ hb ih =>
    rw [List.flatMap_append]
    refine (ih (fun w h => hw w (List.mem_append_left _ h)) hc).append (.of_notMem ?_)
    have hno : [','].any Text.isBlank = false := by decide
    exact notMem_of_forall (List.forall_mem_singleton.mpr hb) hno _ (List.mem_singleton_self _)
  | run _ w ih =>
    rw [List.flatMap_append]
    refine (ih (fun w h => hw w (List.mem_append_left _ h)) (commaFree_append.mp hc).1).append ?_
    have hno : [','].any isWordChar = false := by decide
    refine .of_notMem (notMem_of_forall ?_ hno _ (List.mem_singleton_self _))
    simpa [chars] using hw w (by simp)
  | atSign _ ih =>
    rw [List.flatMap_append]
    refine (ih (fun w h => hw w (List.mem_append_left _ h)) (commaFree_append.mp hc).1).append ?_
    exact .of_notMem (by decide)
  | comma =>
    have h := (commaFree_append.mp hc).2 _ (List.mem_singleton_self _)
    cases h
  | @bracket _ ps qs _ _ _ _ hi hl ih _ =>
    have hs := (hi.arraySuffix hl).notMem (c := ',') (by decide) (by decide) (by decide) (by decide)
    have h := (ih (fun w h => hw w (by simp [h])) (commaFree_append.mp hc).1).append (.of_notMem hs)
    simpa [chars] using h
  | group _ hi ih _ =>
    have hg := Text.CommasGrouped.group (hi.formed fun w h => hw w (by simp [h])).balanced
    have h := (ih (fun w h => hw w (by simp [h])) (commaFree_append.mp hc).1).append hg
    simpa [chars] using h

end Stretch

namespace Piece

theorem ofChars_append_mark (hc : isWordChar c = false) (xs ys : List Char) :
    ofChars (xs ++ [c] ++ ys) = ofChars (xs ++ [c]) ++ ofChars ys := by
  rw [ofChars_append xs (apart_cons hc []), List.append_assoc, List.singleton_append,
    ofChars_append xs (apart_cons hc ys), ofChars_cons_mark hc, ofChars_cons_mark hc,
    List.append_assoc]
  rfl

theorem ofChars_append_blank (h : ∀ c ∈ xs, Text.isBlank c = true) (ys : List Char) :
    ofChars (xs ++ ys) = ofChars xs ++ ofChars ys := by
  obtain rfl | ⟨xs, c, rfl⟩ := List.eq_nil_or_concat xs
  · rfl
  · rw [List.concat_eq_append] at h ⊢
    exact ofChars_append_mark (isWordChar_of_isBlank (h c (by simp))) xs ys

theorem apart_of_blank (h : ∀ c ∈ cs, Text.isBlank c = true) : Apart cs :=
  fun c hc => isWordChar_of_isBlank (h c (List.mem_of_head? hc))

theorem Apart.of_prefix (h : Apart cs) (hp : xs <+: cs) : Apart xs := by
  obtain ⟨more, rfl⟩ := hp
  cases xs with
  | nil => exact apart_nil
  | cons => exact h

/-- A word is taken as long as it goes on. -/
theorem exists_word (hc : isWordChar c = true) (cs : List Char) :
    ∃ w rest, c :: cs = w ++ rest ∧ w ≠ [] ∧ (∀ d ∈ w, isWordChar d = true) ∧ Apart rest := by
  refine ⟨(c :: cs).takeWhile isWordChar, (c :: cs).dropWhile isWordChar,
    List.takeWhile_append_dropWhile.symm, ?_, fun d hd => List.mem_takeWhile_imp hd, ?_⟩
  · rw [List.takeWhile_cons_of_pos hc]
    exact List.cons_ne_nil _ _
  · intro d hd
    have h := List.head?_dropWhile_not isWordChar (c :: cs)
    rw [hd] at h
    simpa using h

end Piece

namespace Stretch

theorem of_blank (h : ∀ c ∈ cs, Text.isBlank c = true) (start : Nat) :
    Stretch start (ofChars cs) [] := by
  induction cs generalizing start with
  | nil => exact .nil
  | cons c cs ih =>
    rw [List.forall_mem_cons] at h
    rw [ofChars_cons_mark (isWordChar_of_isBlank h.1)]
    exact (Stretch.nil.blank h.1).append (ih h.2 _)

/-- What may stand in brackets is read as lexemes that make up an array suffix. -/
theorem exists_inside {before digits after : List Char}
    (hb : ∀ c ∈ before, Text.isBlank c = true) (hd : ∀ c ∈ digits, c.isDigit = true)
    (hv : Nat.ofDigitChars 10 digits 0 < 2 ^ 64) (ha : ∀ c ∈ after, Text.isBlank c = true)
    (start : Nat) :
    ∃ ls : List Lexeme, Stretch start (ofChars (before ++ digits ++ after)) (ls.map .single) ∧
      ∀ openAt closeAt, ∃ l, Lexer.arraySuffix ⟨openAt, ls.reverse⟩ closeAt = .ok l := by
  by_cases hne : digits = []
  · subst hne
    refine ⟨[], of_blank ?_ start, fun _ _ => ⟨_, rfl⟩⟩
    rw [List.append_nil]
    exact List.forall_mem_append.mpr ⟨hb, ha⟩
  · obtain ⟨n, hn⟩ := Option.isSome_iff_exists.mp (Text.isSome_word64?_iff.mpr ⟨hne, hd, hv⟩)
    refine ⟨[.number digits (start + extent (ofChars before))], ?_,
      fun _ _ => ⟨_, Lexer.arraySuffix_number rfl hn _ _⟩⟩
    rw [ofChars_append _ (apart_of_blank ha), ofChars_append_blank hb,
      ofChars_word hne fun c hc => isWordChar_of_isDigit (hd c hc)]
    have h := ((of_blank hb start).run digits).append (of_blank ha _)
    rwa [Lexeme.ofRun_digits hne hd, List.append_nil] at h

end Stretch

/-- A text that makes up a stretch wherever it begins. Commas of its own it may have in a group
only. -/
def Readable (listed : Bool) (cs : List Char) : Prop :=
  ∀ start, ∃ items, Stretch start (ofChars cs) items ∧ (listed = false → CommaFree items)

namespace Readable

theorem nil : Readable listed [] := fun _ => ⟨[], .nil, fun _ => commaFree_nil⟩

theorem append (hx : Readable listed xs) (hy : Readable listed ys)
    (h : ofChars (xs ++ ys) = ofChars xs ++ ofChars ys) : Readable listed (xs ++ ys) := by
  intro start
  obtain ⟨items, hi, hc⟩ := hx start
  obtain ⟨more, hm, hc'⟩ := hy (start + extent (ofChars xs))
  refine ⟨items ++ more, h ▸ hi.append hm, fun hl => ?_⟩
  exact commaFree_append.mpr ⟨hc hl, hc' hl⟩

theorem toListed (h : Readable false cs) : Readable listed cs := by
  intro start
  obtain ⟨items, hi, hc⟩ := h start
  exact ⟨items, hi, fun _ => hc rfl⟩

theorem blank (h : Text.isBlank c = true) : Readable listed [c] := by
  intro start
  rw [ofChars_cons_mark (isWordChar_of_isBlank h)]
  exact ⟨[], Stretch.nil.blank h, fun _ => commaFree_nil⟩

theorem atSign : Readable listed ['@'] :=
  fun _ => ⟨_, Stretch.nil.atSign, fun _ => Stretch.commaFree_map_single [_]⟩

theorem comma : Readable true [','] := fun _ => ⟨_, Stretch.nil.comma, nofun⟩

theorem word (hne : w ≠ []) (hw : ∀ c ∈ w, isWordChar c = true) : Readable listed w := by
  intro start
  rw [ofChars_word hne hw]
  exact ⟨_, Stretch.nil.run w, fun _ => Stretch.commaFree_map_single _⟩

theorem group (h : Readable true inner) : Readable listed ('(' :: inner ++ [')']) := by
  intro start
  obtain ⟨body, hb, -⟩ := h (start + 1)
  rw [ofChars_between (by decide) (by decide), show ofChars [] = [] from rfl, List.append_nil]
  exact ⟨_, Stretch.nil.group hb, fun _ => Item.commaFree_cons.mpr ⟨rfl, commaFree_nil⟩⟩

theorem arraySuffix (h : Text.ArraySuffix s) : Readable listed s := by
  intro start
  obtain ⟨hb, hd, hv, ha⟩ := h
  obtain ⟨ls, hi, hl⟩ := Stretch.exists_inside hb hd hv ha (start + 1)
  obtain ⟨l, hl⟩ := hl start _
  rw [ofChars_between (by decide) (by decide), show ofChars [] = [] from rfl, List.append_nil]
  exact ⟨_, Stretch.nil.bracket hi hl, fun _ => Item.commaFree_cons.mpr ⟨rfl, commaFree_nil⟩⟩

end Readable

/-- A text as stretches in a row, all but the last of them with a parenthesis that closes them. -/
inductive Layered : Nat → List Char → Prop where
  | last {cs : List Char} (h : Readable false cs) : Layered 0 cs
  | close {d : Nat} {cs rest : List Char} (h : Readable true cs) (hr : Layered d rest) :
      Layered (d + 1) (cs ++ ')' :: rest)

namespace Layered

theorem prepend (h : Layered d cs) (hx : Readable false xs)
    (hp : ∀ ys, ys <+: cs → ofChars (xs ++ ys) = ofChars xs ++ ofChars ys) :
    Layered d (xs ++ cs) := by
  cases h with
  | last h => exact .last (hx.append h (hp _ List.prefix_rfl))
  | close h hr =>
    rw [← List.append_assoc]
    exact .close (hx.toListed.append h (hp _ (List.prefix_append ..))) hr

theorem prepend_mark (hc : isWordChar c = false) (xs : List Char)
    (hx : Readable false (xs ++ [c])) (h : Layered d cs) : Layered d (xs ++ [c] ++ cs) :=
  h.prepend hx fun ys _ => ofChars_append_mark hc xs ys

theorem prepend_word (hne : w ≠ []) (hw : ∀ c ∈ w, isWordChar c = true) (hs : Apart cs)
    (h : Layered d cs) : Layered d (w ++ cs) :=
  h.prepend (.word hne hw) fun _ hy => ofChars_append w (hs.of_prefix hy)

theorem comma (h : Layered (d + 1) cs) : Layered (d + 1) (',' :: cs) := by
  cases h with
  | close h hr => exact .close (Readable.comma.append h (ofChars_append_mark (by decide) [] _)) hr

theorem group (h : Layered (d + 1) cs) : Layered d ('(' :: cs) := by
  cases h with
  | @close _ inner rest h hr =>
    simpa using prepend_mark (by decide) ('(' :: inner) h.group hr

end Layered

/-- What is left of a text of the language can be read. -/
theorem Text.Pending.layered (h : Pending d cs) : Layered d cs := by
  induction hn : cs.length using Nat.strong_induction_on generalizing d cs with
  | _ n ih =>
    subst hn
    cases cs with
    | nil =>
      obtain rfl : 0 = d := h.settled
      exact .last .nil
    | cons c cs =>
      have htail {e : Nat} (h : Pending e cs) : Layered e cs := ih _ (Nat.lt_succ_self _) h rfl
      rcases (h.permitted c (List.mem_cons_self ..)).cases with hb | hc | hm
      · have h : Pending d ([c] ++ cs) := h
        have hrest := h.drop_plain (notMem_of_forall (List.forall_mem_singleton.mpr hb) (by decide))
        exact .prepend_mark (isWordChar_of_isBlank hb) [] (.blank hb) (htail hrest)
      · obtain ⟨w, rest, he, hne, hw, hapart⟩ := exists_word hc cs
        have hlt : rest.length < (c :: cs).length := by
          have hpos := List.length_pos_iff.mpr hne
          rw [he, List.length_append]
          omega
        rw [he] at h ⊢
        have hrest := h.drop_plain (notMem_of_forall hw (by decide))
        exact .prepend_word hne hw hapart (ih _ hlt hrest rfl)
      · simp only [List.mem_cons, List.not_mem_nil, or_false] at hm
        rcases hm with rfl | rfl | rfl | rfl | rfl | rfl
        · exact (htail h.drop_open).group
        · obtain ⟨e, rfl, hrest⟩ := h.drop_close
          exact .close .nil (htail hrest)
        · obtain ⟨s, rest, hs, he, hrest⟩ := h.drop_bracket
          obtain ⟨inside, rfl, -⟩ := hs.inside
          have hlt : rest.length < ('[' :: cs).length := by
            rw [he, List.length_append]
            simp
          rw [he]
          exact .prepend_mark (by decide) ('[' :: inside) (.arraySuffix hs) (ih _ hlt hrest rfl)
        · exact h.not_bracket.elim
        · obtain ⟨e, rfl, hrest⟩ := h.drop_comma
          exact (htail hrest).comma
        · have h : Pending d (['@'] ++ cs) := h
          exact .prepend_mark (by decide) [] .atSign (htail (h.drop_plain (by simp)))

namespace Token

/-- The lexer accepts the texts of its language and no others. -/
theorem exists_scan_iff (text : String) :
    (∃ tokens, scan text = .ok tokens) ↔ Text.Lexable text.toList := by
  constructor
  · rintro ⟨tokens, h⟩
    obtain ⟨items, hi, -⟩ := map_eq_ok_iff.mp h
    obtain ⟨hs, hc⟩ := Item.ofChars_eq_ok.mp hi
    have hw : ∀ w, .run w ∈ ofChars text.toList → ∀ c ∈ w, isWordChar c = true :=
      fun w => Piece.word_of_mem_ofChars
    have hchars := flatMap_chars_ofChars text.toList
    exact ⟨hchars ▸ hs.formed hw, hchars ▸ hs.commasGrouped hw hc⟩
  · intro h
    cases h.pending.layered with
    | last h =>
      obtain ⟨items, hs, hc⟩ := h 0
      exact ⟨_, map_eq_ok_iff.mpr ⟨items, Item.ofChars_eq_ok.mpr ⟨hs, hc rfl⟩, rfl⟩⟩

end Token

end ContractAbi
