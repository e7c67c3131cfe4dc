import ContractAbi.Proofs.Nesting
import ContractAbi.Proofs.Spelling

/-!
What the lexer makes of a text, as a relation between stretches of the text and their items. It
holds of whatever stands between two parentheses or commas as it does of the text, and it does not
depend on what stands around it.
-/

namespace ContractAbi

namespace Piece

/-- The number of characters of pieces in a row. -/
def extent (pieces : List Piece) : Nat := (pieces.flatMap chars).length

@[simp] theorem extent_nil : extent [] = 0 := rfl

@[simp] theorem extent_append (ps qs : List Piece) : extent (ps ++ qs) = extent ps + extent qs := by
  rw [extent, List.flatMap_append, List.length_append]
  rfl

@[simp] theorem extent_cons (p : Piece) (ps : List Piece) :
    extent (p :: ps) = p.length + extent ps := by
  rw [extent, List.flatMap_cons, List.length_append]
  rfl

theorem extent_concat (ps : List Piece) (p : Piece) :
    extent (ps ++ [p]) = extent ps + p.length := by
  rw [extent_append, extent_cons, extent_nil, Nat.add_zero]

@[simp] theorem length_mark (c : Char) : (mark c).length = 1 := rfl

/-- Pieces into which a text can be divided: no run goes on after its end. -/
inductive Divided : List Piece → Prop where
  | nil : Divided []
  | mark {c : Char} {ps : List Piece} (hc : isWordChar c = false) (h : Divided ps) :
      Divided (mark c :: ps)
  | run {w : List Char} {ps : List Piece} (hne : w ≠ []) (hw : ∀ c ∈ w, isWordChar c = true)
      (hs : ∀ v rest, ps ≠ run v :: rest) (h : Divided ps) : Divided (run w :: ps)

namespace Divided

theorem ofChars_flatMap {ps : List Piece} (h : Divided ps) : ofChars (ps.flatMap chars) = ps := by
  induction h with
  | nil => rfl
  | @mark c ps hc _ ih =>
    change ofChars (c :: ps.flatMap chars) = _
    rw [ofChars_cons_mark hc, ih]
  | @run w ps hne hw hs h ih =>
    have hapart : Apart (ps.flatMap chars) := by
      cases h with
      | nil => exact apart_nil
      | mark hc => exact apart_cons hc _
      | run => exact absurd rfl (hs _ _)
    rw [List.flatMap_cons, chars, ofChars_append w hapart, ofChars_word hne hw, ih]
    rfl

theorem left {ps qs : List Piece} (h : Divided (ps ++ qs)) : Divided ps := by
  induction ps with
  | nil => exact .nil
  | cons p ps ih =>
    cases h with
    | mark hc h => exact .mark hc (ih h)
    | run hne hw hs h =>
      refine .run hne hw ?_ (ih h)
      rintro v rest rfl
      exact hs v (rest ++ qs) rfl

theorem right {ps qs : List Piece} (h : Divided (ps ++ qs)) : Divided qs := by
  induction ps with
  | nil => exact h
  | cons p ps ih =>
    cases h with
    | mark _ h => exact ih h
    | run _ _ _ h => exact ih h

end Divided

theorem divided_ofChars (cs : List Char) : Divided (ofChars cs) := by
  induction cs with
  | nil => exact .nil
  | cons c cs ih =>
    rw [ofChars, List.foldr_cons, ← ofChars]
    unfold cons
    by_cases hc : isWordChar c = true
    · rw [if_pos hc]
      split
      next w rest hp =>
        rw [hp] at ih
        cases ih with
        | run _ hw hs h =>
          exact .run (List.cons_ne_nil _ _) (List.forall_mem_cons.mpr ⟨hc, hw⟩) hs h
      next hno => exact .run (List.cons_ne_nil _ _) (by simpa using hc) hno ih
    · rw [if_neg hc]
      exact .mark (Bool.eq_false_iff.mpr hc) ih

end Piece

open Piece

namespace Lexeme

/-- The lexemes of a run: its digits, if it begins with some, and the word after them. -/
def ofRun (w : List Char) (offset : Nat) : List Lexeme :=
  let digits := w.takeWhile Char.isDigit
  let letters := w.dropWhile Char.isDigit
  (if digits.isEmpty then [] else [number digits offset]) ++
    if letters.isEmpty then [] else [word letters (offset + digits.length)]

end Lexeme

/-- The items of a stretch of a text that begins at `start`. -/
inductive Stretch : (start : Nat) → List Piece → List Item → Prop where
  | nil {start : Nat} : Stretch start [] []
  | blank {start : Nat} {c : Char} {ps : List Piece} {items : List Item}
      (h : Stretch start ps items) (hc : Text.isBlank c = true) :
      Stretch start (ps ++ [.mark c]) items
  | run {start : Nat} {ps : List Piece} {items : List Item} (h : Stretch start ps items)
      (w : List Char) :
      Stretch start (ps ++ [.run w])
        (items ++ (Lexeme.ofRun w (start + extent ps)).map .single)
  | atSign {start : Nat} {ps : List Piece} {items : List Item} (h : Stretch start ps items) :
      Stretch start (ps ++ [.mark '@'])
        (items ++ [.single ⟨.atSign, "@", start + extent ps, none⟩])
  | comma {start : Nat} {ps : List Piece} {items : List Item} (h : Stretch start ps items) :
      Stretch start (ps ++ [.mark ',']) (items ++ [.comma (start + extent ps)])
  | bracket {start : Nat} {ps qs : List Piece} {items : List Item} {ls : List Lexeme} {l : Lexeme}
      (h : Stretch start ps items) (hi : Stretch (start + extent ps + 1) qs (ls.map .single))
      (hl : Lexer.arraySuffix ⟨start + extent ps, ls.reverse⟩
        (start + extent ps + 1 + extent qs) = .ok l) :
      Stretch start (ps ++ .mark '[' :: qs ++ [.mark ']']) (items ++ [.single l])
  | group {start : Nat} {ps qs : List Piece} {items body : List Item}
      (h : Stretch start ps items) (hi : Stretch (start + extent ps + 1) qs body) :
      Stretch start (ps ++ .mark '(' :: qs ++ [.mark ')'])
        (items ++ [.group (start + extent ps) body (start + extent ps + 1 + extent qs)])

namespace Lexer

open Item

variable {s s' : Lexer} {offset : Nat}

theorem addRun_eq (s : Lexer) (w : List Char) (offset : Nat) :
    s.addRun w offset = (Lexeme.ofRun w offset).foldl add s := by
  rw [addRun, Lexeme.ofRun]
  by_cases hd : (w.takeWhile Char.isDigit).isEmpty = true <;>
    by_cases hl : (w.dropWhile Char.isDigit).isEmpty = true <;> simp [hd, hl]

theorem foldl_add_of_no_bracket (items : List Item) (groups : List OpenGroup) (ls : List Lexeme) :
    ls.foldl add ⟨items, groups, none⟩ = ⟨(ls.map single).reverse ++ items, groups, none⟩ := by
  induction ls generalizing items with
  | nil => rfl
  | cons l ls ih =>
    rw [List.foldl_cons, add_of_no_bracket rfl, ih, List.map_cons, List.reverse_cons,
      List.append_assoc, List.singleton_append]

theorem foldl_add_of_bracket (items : List Item) (groups : List OpenGroup) (b : OpenBracket)
    (ls : List Lexeme) :
    ls.foldl add ⟨items, groups, some b⟩ =
      ⟨items, groups, some ⟨b.offset, ls.reverse ++ b.inside⟩⟩ := by
  induction ls generalizing b with
  | nil => rfl
  | cons l ls ih =>
    rw [List.foldl_cons, add]
    dsimp only
    rw [ih, List.reverse_cons, List.append_assoc, List.singleton_append]

/-- What has been read up to the innermost group that is open, and the groups open there. -/
inductive Under : List Piece → List OpenGroup → Prop where
  | nil : Under [] []
  | cons {before ps : List Piece} {groups : List OpenGroup} {items : List Item}
      (h : Under before groups) (hs : Stretch (extent before) ps items) :
      Under (before ++ ps ++ [.mark '(']) (⟨extent before + extent ps, items.reverse⟩ :: groups)

/-- The lexer after the pieces of a text that it has read. -/
inductive Follows : List Piece → Lexer → Prop where
  | outside {before ps : List Piece} {groups : List OpenGroup} {items : List Item}
      (hu : Under before groups) (hs : Stretch (extent before) ps items) :
      Follows (before ++ ps) ⟨items.reverse, groups, none⟩
  | inside {before ps qs : List Piece} {groups : List OpenGroup} {items : List Item}
      {ls : List Lexeme} (hu : Under before groups) (hs : Stretch (extent before) ps items)
      (hi : Stretch (extent before + extent ps + 1) qs (ls.map .single)) :
      Follows (before ++ ps ++ .mark '[' :: qs)
        ⟨items.reverse, groups, some ⟨extent before + extent ps, ls.reverse⟩⟩

namespace Follows

variable {read : List Piece}

theorem addLexemes {p : Piece} {ls : List Lexeme} (h : Follows read s)
    (hs : ∀ {start : Nat} {ps : List Piece} {items : List Item}, Stretch start ps items →
      start + extent ps = extent read → Stretch start (ps ++ [p]) (items ++ ls.map .single)) :
    Follows (read ++ [p]) (ls.foldl add s) := by
  cases h with
  | outside hu h =>
    rw [foldl_add_of_no_bracket, ← List.reverse_append, List.append_assoc]
    exact .outside hu (hs h (extent_append ..).symm)
  | @inside before ps qs groups items ls' hu h hi =>
    have hi' := hs hi (by simp only [extent_append, extent_cons, length_mark]; omega)
    rw [← List.map_append] at hi'
    rw [foldl_add_of_bracket, ← List.reverse_append, List.append_assoc, List.cons_append]
    exact .inside hu h hi'

theorem closeGroup {items : List Item} {g : OpenGroup} {groups : List OpenGroup}
    {before ps : List Piece} (hu : Under before (g :: groups))
    (h : Stretch (extent before) ps items) :
    Follows (before ++ ps ++ [.mark ')'])
      ⟨.group g.offset items (extent (before ++ ps)) :: g.before, groups, none⟩ := by
  cases hu with
  | @cons before' ps' _ items' hu h' =>
    have hstart : extent (before' ++ ps' ++ [.mark '(']) = extent before' + extent ps' + 1 := by
      simp [Nat.add_assoc]
    rw [hstart] at h
    have hgroup := Follows.outside hu (h'.group h)
    rw [List.reverse_concat] at hgroup
    rw [extent_append, hstart]
    simpa using hgroup

theorem openBracket {items : List Item} {groups : List OpenGroup} {before ps : List Piece}
    (hu : Under before groups) (h : Stretch (extent before) ps items) :
    Follows (before ++ ps ++ [.mark '['])
      ⟨items.reverse, groups, some ⟨extent (before ++ ps), []⟩⟩ := by
  have hempty : Stretch (extent before + extent ps + 1) [] (([] : List Lexeme).map .single) := .nil
  rw [extent_append]
  exact .inside hu h hempty

theorem closeBracket {items : List Item} {groups : List OpenGroup} {before ps qs : List Piece}
    {ls : List Lexeme} {l : Lexeme} (hu : Under before groups)
    (h : Stretch (extent before) ps items)
    (hi : Stretch (extent before + extent ps + 1) qs (ls.map .single))
    (hl : arraySuffix ⟨extent before + extent ps, ls.reverse⟩
      (extent (before ++ ps ++ .mark '[' :: qs)) = .ok l) :
    Follows (before ++ ps ++ .mark '[' :: qs ++ [.mark ']'])
      ⟨.single l :: items.reverse, groups, none⟩ := by
  have hoffset : extent (before ++ ps ++ .mark '[' :: qs) =
      extent before + extent ps + 1 + extent qs := by
    simp only [extent_append, extent_cons, length_mark, Nat.add_assoc]
  rw [hoffset] at hl
  have hbracket := Follows.outside hu (h.bracket hi hl)
  rw [List.reverse_concat] at hbracket
  simpa using hbracket

theorem punctuation {c : Char} (h : Follows read s)
    (hr : s.punctuation c (extent read) = .ok s') : Follows (read ++ [.mark c]) s' := by
  unfold Lexer.punctuation at hr
  split at hr
  · obtain ⟨hb, hr⟩ := outsideBracket_bind hr
    obtain rfl := Except.ok.inj hr
    cases h with
    | inside => cases hb
    | outside hu h =>
      rw [extent_append]
      simpa using Follows.outside (hu.cons h) .nil
  · obtain ⟨hb, hr⟩ := outsideBracket_bind hr
    cases h with
    | inside => cases hb
    | outside hu h =>
      unfold Lexer.closeGroup at hr
      split at hr
      next => cases hr
      next g groups hg =>
        dsimp only at hg
        subst hg
        obtain rfl := Except.ok.inj hr
        rw [List.reverse_reverse]
        exact closeGroup hu h
  · obtain ⟨hb, hr⟩ := outsideBracket_bind hr
    cases h with
    | inside => cases hb
    | outside hu h =>
      unfold Lexer.addComma at hr
      split at hr
      next => cases hr
      next g groups hg =>
        dsimp only at hg
        subst hg
        obtain rfl := Except.ok.inj hr
        rw [extent_append, ← List.reverse_concat, List.append_assoc]
        exact .outside hu h.comma
  · obtain ⟨hb, hr⟩ := outsideBracket_bind hr
    obtain rfl := Except.ok.inj hr
    cases h with
    | inside => cases hb
    | outside hu h => exact openBracket hu h
  · unfold Lexer.closeBracket at hr
    split at hr
    next => cases hr
    next b hb =>
      cases h with
      | outside => cases hb
      | inside hu h hi =>
        obtain rfl := Option.some.inj hb
        obtain ⟨l, hl, rfl⟩ := map_eq_ok_iff.mp hr
        exact closeBracket hu h hi hl
  · obtain rfl := Except.ok.inj hr
    exact @addLexemes s read (.mark '@') [⟨.atSign, "@", extent read, none⟩] h
      fun hs hoffset => hoffset ▸ hs.atSign
  · cases hr

theorem addPiece {p : Piece} (h : Follows read s) (hr : s.addPiece p (extent read) = .ok s') :
    Follows (read ++ [p]) s' := by
  unfold Lexer.addPiece at hr
  split at hr
  next w =>
    obtain rfl := Except.ok.inj hr
    rw [addRun_eq]
    exact h.addLexemes fun hs hoffset => hoffset ▸ hs.run w
  next c =>
    split at hr
    next hc =>
      obtain rfl := Except.ok.inj hr
      exact @addLexemes s read (.mark c) [] h fun hs _ => by simpa using hs.blank hc
    next => exact h.punctuation hr

theorem run {ps : List Piece} (h : Follows read s) (hr : s.run (extent read) ps = .ok s') :
    Follows (read ++ ps) s' := by
  induction ps generalizing s read with
  | nil =>
    obtain rfl := Except.ok.inj hr
    rwa [List.append_nil]
  | cons p ps ih =>
    rw [Lexer.run] at hr
    cases hs : s.addPiece p (extent read) with
    | error e =>
      rw [hs] at hr
      cases hr
    | ok s₁ =>
      rw [hs] at hr
      have hnext : extent (read ++ [p]) = extent read + p.length := by simp
      have hstep := ih (h.addPiece hs) (by rw [hnext]; exact hr)
      rwa [List.append_assoc, List.singleton_append] at hstep

theorem finish {items : List Item} (h : Follows read s) (hr : s.finish = .ok items) :
    Stretch 0 read items := by
  cases h with
  | inside => cases hr
  | @outside before ps groups items' hu h =>
    cases hu with
    | cons => cases hr
    | nil =>
      obtain rfl := Except.ok.inj hr
      rw [List.reverse_reverse]
      exact h

end Follows

theorem kind_arraySuffix {b : OpenBracket} {l : Lexeme} (h : arraySuffix b offset = .ok l) :
    l.kind = .bracket ∧
      (b.inside = [] ∨ ∃ n length, b.inside = [n] ∧ n.kind = .number ∧ n.value = some length) := by
  unfold arraySuffix at h
  split at h
  next hb =>
    obtain rfl := Except.ok.inj h
    exact ⟨rfl, .inl hb⟩
  next n hb =>
    split at h
    next hk =>
      split at h
      next length hv =>
        obtain rfl := Except.ok.inj h
        exact ⟨rfl, .inr ⟨n, length, hb, hk, hv⟩⟩
      next => cases h
    next => cases h
  next => cases h

theorem not_bracket_of_arraySuffix {openAt : Nat} {ls : List Lexeme} {l m : Lexeme}
    (h : arraySuffix ⟨openAt, ls.reverse⟩ offset = .ok l) (hm : m ∈ ls) : m.kind ≠ .bracket := by
  obtain ⟨-, hb | ⟨n, -, hb, hn, -⟩⟩ := kind_arraySuffix h
  · rw [List.reverse_eq_nil_iff.mp hb] at hm
    cases hm
  · obtain rfl : ls = [n] := by simpa using congrArg List.reverse hb
    rw [List.mem_singleton.mp hm, hn]
    exact nofun

/-- What brackets hold is read as it is elsewhere, but kept apart from the items. -/
theorem run_inside {start : Nat} {ps : List Piece} {items : List Item}
    (h : Stretch start ps items) {ls : List Lexeme} (he : items = ls.map .single)
    (hk : ∀ l ∈ ls, l.kind ≠ .bracket) (outer : List Item) (groups : List OpenGroup) (openAt : Nat)
    (rest : List Piece) :
    run ⟨outer, groups, some ⟨openAt, []⟩⟩ start (ps ++ rest) =
      run ⟨outer, groups, some ⟨openAt, ls.reverse⟩⟩ (start + extent ps) rest := by
  induction h generalizing ls rest with
  | nil =>
    obtain rfl := List.map_eq_nil_iff.mp he.symm
    rfl
  | blank _ hc ih =>
    rw [List.append_assoc, ih he hk, List.singleton_append, run_cons (by rw [addPiece, if_pos hc]),
      extent_append]
    rfl
  | @run start ps items _ w ih =>
    obtain ⟨ls, new, rfl, rfl, hnew⟩ := List.map_eq_append_iff.mp he.symm
    obtain rfl := (List.map_inj_right fun _ _ => Item.single.inj).mp hnew
    rw [List.append_assoc, ih rfl fun l hl => hk l (List.mem_append_left _ hl),
      List.singleton_append, run_cons (by rw [addPiece, addRun_eq]), foldl_add_of_bracket,
      extent_concat, List.reverse_append, Nat.add_assoc]
  | @atSign start ps items _ ih =>
    obtain ⟨ls, new, rfl, rfl, hnew⟩ := List.map_eq_append_iff.mp he.symm
    obtain ⟨l, rfl, hl⟩ := List.map_eq_singleton_iff.mp hnew
    obtain rfl := Item.single.inj hl
    rw [List.append_assoc, ih rfl fun l hl => hk l (List.mem_append_left _ hl), extent_append,
      List.reverse_append]
    rfl
  | comma =>
    obtain ⟨-, new, -, -, hnew⟩ := List.map_eq_append_iff.mp he.symm
    obtain ⟨l, -, hl⟩ := List.map_eq_singleton_iff.mp hnew
    cases hl
  | bracket _ _ hl =>
    obtain ⟨ls, new, rfl, -, hnew⟩ := List.map_eq_append_iff.mp he.symm
    obtain ⟨l, rfl, hl'⟩ := List.map_eq_singleton_iff.mp hnew
    obtain rfl := Item.single.inj hl'
    have hm : l ∈ ls ++ [l] := List.mem_append_right _ (List.mem_singleton_self l)
    exact absurd (kind_arraySuffix hl).1 (hk l hm)
  | group =>
    obtain ⟨-, new, -, -, hnew⟩ := List.map_eq_append_iff.mp he.symm
    obtain ⟨l, -, hl⟩ := List.map_eq_singleton_iff.mp hnew
    cases hl

/-- A stretch is read wherever it stands, as long as commas have a group that they belong to. -/
theorem run_stretch {start : Nat} {ps : List Piece} {items : List Item}
    (h : Stretch start ps items) (outer : List Item) {groups : List OpenGroup}
    (hc : groups = [] → CommaFree items) (rest : List Piece) :
    run ⟨outer, groups, none⟩ start (ps ++ rest) =
      run ⟨items.reverse ++ outer, groups, none⟩ (start + extent ps) rest := by
  induction h generalizing outer groups rest with
  | nil => rfl
  | blank _ hc' ih =>
    rw [List.append_assoc, ih outer hc, List.singleton_append,
      run_cons (by rw [addPiece, if_pos hc']), extent_append]
    rfl
  | run _ w ih =>
    rw [List.append_assoc, ih outer fun hg => (commaFree_append.mp (hc hg)).1,
      List.singleton_append, run_cons (by rw [addPiece, addRun_eq]), foldl_add_of_no_bracket,
      extent_concat, List.reverse_append, List.append_assoc, Nat.add_assoc]
  | atSign _ ih =>
    rw [List.append_assoc, ih outer fun hg => (commaFree_append.mp (hc hg)).1, extent_append,
      List.reverse_append]
    rfl
  | comma _ ih =>
    rw [List.append_assoc, ih outer fun hg => (commaFree_append.mp (hc hg)).1, extent_append,
      List.reverse_append]
    cases groups with
    | nil => simpa [isComma] using (commaFree_append.mp (hc rfl)).2
    | cons g groups => rfl
  | @bracket start ps qs items ls l _ hi hl ih _ =>
    rw [List.append_assoc, List.append_assoc, List.cons_append, List.cons_append,
      ih outer fun hg => (commaFree_append.mp (hc hg)).1]
    have hopen : addPiece ⟨items.reverse ++ outer, groups, none⟩ (.mark '[') (start + extent ps) =
        .ok ⟨items.reverse ++ outer, groups, some ⟨start + extent ps, []⟩⟩ := rfl
    have hclose : addPiece ⟨items.reverse ++ outer, groups,
        some ⟨start + extent ps, ls.reverse⟩⟩ (.mark ']') (start + extent ps + 1 + extent qs) =
          .ok ⟨.single l :: (items.reverse ++ outer), groups, none⟩ := by
      rw [addPiece_mark (by decide), punctuation, closeBracket]
      dsimp only
      rw [hl]
      rfl
    rw [run_cons hopen, length_mark, run_inside hi rfl fun m => not_bracket_of_arraySuffix hl,
      List.nil_append, run_cons hclose]
    simp [Nat.add_assoc]
  | @group start ps qs items body _ _ ih ihi =>
    rw [List.append_assoc, List.append_assoc, List.cons_append, List.cons_append,
      ih outer fun hg => (commaFree_append.mp (hc hg)).1]
    have hopen : addPiece ⟨items.reverse ++ outer, groups, none⟩ (.mark '(') (start + extent ps) =
        .ok ⟨[], ⟨start + extent ps, items.reverse ++ outer⟩ :: groups, none⟩ := rfl
    have hclose : addPiece ⟨body.reverse ++ [],
        ⟨start + extent ps, items.reverse ++ outer⟩ :: groups, none⟩ (.mark ')')
          (start + extent ps + 1 + extent qs) =
        .ok ⟨.group (start + extent ps) body (start + extent ps + 1 + extent qs) ::
          (items.reverse ++ outer), groups, none⟩ := by
      rw [List.append_nil, addPiece_mark (by decide), punctuation, outsideBracket_of_no_bracket rfl]
      change closeGroup
        ⟨body.reverse, ⟨start + extent ps, items.reverse ++ outer⟩ :: groups, none⟩ _ = _
      rw [closeGroup, List.reverse_reverse]
    rw [run_cons hopen, length_mark, ihi [] (fun hg => absurd hg (List.cons_ne_nil _ _)),
      List.nil_append, run_cons hclose]
    simp [Nat.add_assoc]

end Lexer

namespace Item

/-- The lexer reads a text as one stretch, if no comma in it is outside of all groups. -/
theorem ofChars_eq_ok {cs : List Char} {items : List Item} :
    ofChars cs = .ok items ↔ Stretch 0 (Piece.ofChars cs) items ∧ CommaFree items := by
  constructor
  · intro h
    refine ⟨?_, (proper_ofChars h).1⟩
    rw [ofChars] at h
    cases hs : Lexer.initial.run 0 (Piece.ofChars cs) with
    | error e =>
      rw [hs] at h
      cases h
    | ok s =>
      rw [hs] at h
      have hinitial : Lexer.Follows [] Lexer.initial := .outside .nil .nil
      exact (hinitial.run hs).finish h
  · rintro ⟨hs, hc⟩
    have hrun := @Lexer.run_stretch _ _ _ hs [] [] (fun _ => hc) []
    rw [List.append_nil, List.append_nil] at hrun
    rw [ofChars, Lexer.initial, hrun]
    change (Lexer.mk items.reverse [] none).finish = _
    rw [Lexer.finish, List.reverse_reverse]

end Item

/-- A lexeme as it is `k` characters later. -/
def Lexeme.shift (k : Nat) (l : Lexeme) : Lexeme := { l with offset := k + l.offset }

theorem Lexeme.ofRun_shift (k : Nat) (w : List Char) (offset : Nat) :
    ofRun w (k + offset) = (ofRun w offset).map (shift k) := by
  unfold ofRun
  by_cases hd : (w.takeWhile Char.isDigit).isEmpty = true <;>
    by_cases hl : (w.dropWhile Char.isDigit).isEmpty = true <;>
      simp [hd, hl, shift, word, number, Nat.add_assoc]

namespace Item

mutual

def shift (k : Nat) : Item → Item
  | single l => single (l.shift k)
  | comma offset => comma (k + offset)
  | group openAt body closeAt => group (k + openAt) (shiftAll k body) (k + closeAt)

def shiftAll (k : Nat) : List Item → List Item
  | [] => []
  | item :: rest => item.shift k :: shiftAll k rest

end

mutual

theorem shift_eq_relocate (k : Nat) : (item : Item) → item.shift k = item.relocate (k + ·)
  | single _ | comma _ => rfl
  | group _ body _ => by rw [shift, relocate, shiftAll_eq_relocateAll k body]

theorem shiftAll_eq_relocateAll (k : Nat) :
    (items : List Item) → shiftAll k items = relocateAll (k + ·) items
  | [] => rfl
  | item :: rest => by
    rw [shiftAll, relocateAll, shift_eq_relocate k item, shiftAll_eq_relocateAll k rest]

end

theorem shiftAll_append (k : Nat) (xs ys : List Item) :
    shiftAll k (xs ++ ys) = shiftAll k xs ++ shiftAll k ys := by
  simp only [shiftAll_eq_relocateAll, relocateAll_append]

theorem shiftAll_map_single (k : Nat) (ls : List Lexeme) :
    shiftAll k (ls.map single) = (ls.map (Lexeme.shift k)).map single := by
  induction ls with
  | nil => rfl
  | cons l ls ih => rw [List.map_cons, shiftAll, ih]; rfl

theorem map_single_eq_shiftAll {k : Nat} {ls : List Lexeme} {items : List Item}
    (h : ls.map single = shiftAll k items) :
    ∃ ls' : List Lexeme, items = ls'.map single ∧ ls = ls'.map (Lexeme.shift k) := by
  induction items generalizing ls with
  | nil => exact ⟨[], rfl, List.map_eq_nil_iff.mp h⟩
  | cons item items ih =>
    obtain ⟨l, ls, rfl, hl, hls⟩ := List.map_eq_cons_iff.mp h
    obtain ⟨ls', rfl, rfl⟩ := ih hls
    cases item with
    | comma | group => cases hl
    | single l' =>
      obtain rfl := Item.single.inj hl
      exact ⟨l' :: ls', rfl, rfl⟩

theorem commaFree_shiftAll {k : Nat} {items : List Item} :
    CommaFree (shiftAll k items) ↔ CommaFree items := by
  rw [shiftAll_eq_relocateAll, commaFree_relocateAll]

end Item

theorem Lexer.arraySuffix_shift {k openAt closeAt closeAt' : Nat} {ls : List Lexeme} {l : Lexeme}
    (h : arraySuffix ⟨k + openAt, ls.map (Lexeme.shift k)⟩ closeAt = .ok l) :
    ∃ l', arraySuffix ⟨openAt, ls⟩ closeAt' = .ok l' ∧ l = l'.shift k := by
  obtain ⟨-, hb | ⟨n, length, hb, hk, hv⟩⟩ := kind_arraySuffix h
  · obtain rfl := List.map_eq_nil_iff.mp hb
    exact ⟨_, rfl, (Except.ok.inj h).symm⟩
  · obtain ⟨n, rfl, rfl⟩ := List.map_eq_singleton_iff.mp hb
    refine ⟨_, @arraySuffix_number n length hk hv openAt closeAt', ?_⟩
    exact (Except.ok.inj ((arraySuffix_number hk hv _ _).symm.trans h)).symm

namespace Stretch

open Item Piece

variable {start : Nat} {ps : List Piece} {items : List Item}

/-- What a stretch is made into does not depend on where it begins. -/
theorem unshift {k o : Nat} (h : Stretch (k + o) ps items) :
    ∃ items', Stretch o ps items' ∧ items = shiftAll k items' := by
  generalize hs : k + o = start at h
  induction h generalizing o with
  | nil => exact ⟨[], .nil, rfl⟩
  | blank _ hc ih =>
    obtain ⟨items', h, rfl⟩ := ih hs
    exact ⟨items', h.blank hc, rfl⟩
  | run _ w ih =>
    subst hs
    obtain ⟨items', h, rfl⟩ := ih rfl
    refine ⟨_, h.run w, ?_⟩
    rw [shiftAll_append, shiftAll_map_single, Nat.add_assoc, Lexeme.ofRun_shift]
  | atSign _ ih =>
    subst hs
    obtain ⟨items', h, rfl⟩ := ih rfl
    refine ⟨_, h.atSign, ?_⟩
    rw [shiftAll_append, Nat.add_assoc]
    rfl
  | comma _ ih =>
    subst hs
    obtain ⟨items', h, rfl⟩ := ih rfl
    refine ⟨_, h.comma, ?_⟩
    rw [shiftAll_append, Nat.add_assoc]
    rfl
  | @bracket _ ps qs _ ls l _ _ hl ih ihi =>
    subst hs
    obtain ⟨items', h, rfl⟩ := ih rfl
    obtain ⟨inside, hi, he⟩ := @ihi (o + extent ps + 1) (by omega)
    obtain ⟨ls', rfl, rfl⟩ := map_single_eq_shiftAll he
    rw [Nat.add_assoc k, ← List.map_reverse] at hl
    obtain ⟨l', hl', rfl⟩ := Lexer.arraySuffix_shift hl
    refine ⟨_, h.bracket hi hl', ?_⟩
    rw [shiftAll_append]
    rfl
  | @group _ ps qs _ _ _ _ ih ihi =>
    subst hs
    obtain ⟨items', h, rfl⟩ := ih rfl
    obtain ⟨body', hi, rfl⟩ := @ihi (o + extent ps + 1) (by omega)
    refine ⟨_, h.group hi, ?_⟩
    rw [shiftAll_append]
    simp [shiftAll, shift, Nat.add_assoc]

theorem append {qs : List Piece} {more : List Item} (h : Stretch start ps items)
    (hq : Stretch (start + extent ps) qs more) : Stretch start (ps ++ qs) (items ++ more) := by
  generalize hs : start + extent ps = next at hq
  have hat (rs : List Piece) : start + extent (ps ++ rs) = next + extent rs := by
    rw [extent_append, ← hs, Nat.add_assoc]
  induction hq with
  | nil => rwa [List.append_nil, List.append_nil]
  | blank _ hc ih => exact List.append_assoc .. ▸ (ih hs hat).blank hc
  | run _ w ih =>
    rw [← List.append_assoc, ← List.append_assoc, ← hat]
    exact (ih hs hat).run w
  | atSign _ ih =>
    rw [← List.append_assoc, ← List.append_assoc, ← hat]
    exact (ih hs hat).atSign
  | comma _ ih =>
    rw [← List.append_assoc, ← List.append_assoc, ← hat]
    exact (ih hs hat).comma
  | bracket _ hi hl ih =>
    rw [← hat] at hi hl
    simpa using (ih hs hat).bracket hi hl
  | group _ hi ih =>
    rw [← hat] at hi ⊢
    simpa using (ih hs hat).group hi

/-- A stretch ends before a comma of it, and another one begins after that. -/
def SplitsAt (start : Nat) (ps : List Piece) (part : List Item) (offset : Nat)
    (rest : List Item) : Prop :=
  ∃ qs rs, ps = qs ++ .mark ',' :: rs ∧ offset = start + extent qs ∧ Stretch start qs part ∧
    Stretch (offset + 1) rs rest

theorem SplitsAt.append {qs : List Piece} {part rest new : List Item} {offset : Nat}
    (h : ∀ {more}, part ++ .comma offset :: more = items → SplitsAt start ps part offset more)
    (hq : Stretch (start + extent ps) qs new) (hc : CommaFree new)
    (he : part ++ .comma offset :: rest = items ++ new) :
    SplitsAt start (ps ++ qs) part offset rest := by
  obtain ⟨more, hi, rfl⟩ | ⟨more, -, rfl⟩ := append_eq_append_cons_iff.mp he.symm
  · obtain ⟨us, vs, rfl, rfl, hu, hv⟩ := h hi.symm
    have hat : start + extent (us ++ .mark ',' :: vs) = start + extent us + 1 + extent vs := by
      simp [Nat.add_assoc]
    rw [hat] at hq
    exact ⟨us, vs ++ qs, by simp, rfl, hu, hv.append hq⟩
  · exact absurd (hc (.comma offset) (by simp)) (by simp [isComma])

theorem commaFree_map_single (ls : List Lexeme) : CommaFree (ls.map single) := by
  intro item hi
  obtain ⟨l, -, rfl⟩ := List.mem_map.mp hi
  rfl

theorem split_comma {part rest : List Item} {offset : Nat}
    (h : Stretch start ps (part ++ .comma offset :: rest)) :
    SplitsAt start ps part offset rest := by
  generalize he : part ++ .comma offset :: rest = items at h
  -- what is read last may be the comma itself; if it is not, the comma has been read before it
  induction h generalizing rest with
  | nil => simp at he
  | blank _ hc ih =>
    exact SplitsAt.append ih (Stretch.nil.blank hc) commaFree_nil (by simpa using he)
  | run _ w ih => exact SplitsAt.append ih (Stretch.nil.run w) (commaFree_map_single _) he
  | atSign _ ih => exact SplitsAt.append ih Stretch.nil.atSign (by simp [isComma, commaFree_nil]) he
  | @comma start ps items h ih =>
    obtain ⟨more, hi, rfl⟩ | ⟨more, rfl, hm⟩ := append_eq_append_cons_iff.mp he.symm
    · obtain ⟨qs, rs, rfl, rfl, hq, hr⟩ := ih hi.symm
      have hat : start + extent (qs ++ .mark ',' :: rs) = start + extent qs + 1 + extent rs := by
        simp [Nat.add_assoc]
      rw [hat]
      exact ⟨qs, rs ++ [.mark ','], by simp, rfl, hq, hr.comma⟩
    · obtain ⟨rfl, hm⟩ | ⟨more', -, hm⟩ := List.cons_eq_append_iff.mp hm
      · obtain ⟨ho, rfl⟩ := List.cons.inj hm
        obtain rfl := Item.comma.inj ho
        exact ⟨ps, [], rfl, rfl, by simpa using h, .nil⟩
      · simp at hm
  | bracket _ hi hl ih =>
    rw [List.append_assoc]
    exact SplitsAt.append ih (Stretch.nil.bracket hi hl) (by simp [isComma, commaFree_nil]) he
  | group _ hi ih =>
    rw [List.append_assoc]
    exact SplitsAt.append ih (Stretch.nil.group hi) (by simp [isComma, commaFree_nil]) he

end Stretch

end ContractAbi
