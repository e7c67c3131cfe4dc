import ContractAbi.Proofs.Spacing

/-!
Where the lexer fails. A failure comes with a piece of the text and the place where it stands. As
long as it is not the end of the text that fails, it does not matter what follows; and at the end it
is a bracket or a group that has not been closed.
-/

namespace ContractAbi

open Piece

variable {cs xs ys : List Char} {c : Char}

namespace Text

/-- A bracket at this place of a text is not closed in it. -/
def OpenBracket (cs : List Char) (place : Nat) : Prop :=
  ∃ before after, cs = before ++ '[' :: after ∧ before.length = place ∧ ']' ∉ after

/-- A group that begins at this place of a text is not closed in it: at no point after that are more
groups closed than opened. -/
def OpenGroup (cs : List Char) (place : Nat) : Prop :=
  ∃ before after, cs = before ++ '(' :: after ∧ before.length = place ∧
    ∀ read, read <+: after → read.count ')' ≤ read.count '('

theorem Suffixed.not_openBracket (h : Suffixed cs) (place : Nat) : ¬ OpenBracket cs place := by
  rintro ⟨before, after, rfl, -, hno⟩
  obtain ⟨s, hs, hstart⟩ := h.opened before after rfl
  obtain ⟨inside, rfl, -⟩ := hs.inside
  rw [List.cons_append, List.prefix_cons_inj] at hstart
  exact hno (hstart.subset (List.mem_append_right _ (List.mem_singleton_self _)))

/-- After all others have been closed, one bracket can be open. -/
theorem openBracket_iff (hx : Suffixed xs) (ho : '[' ∉ ys) (hc : ']' ∉ ys) (place : Nat) :
    OpenBracket (xs ++ '[' :: ys) place ↔ place = xs.length := by
  refine ⟨?_, fun h => ⟨xs, ys, rfl, h.symm, hc⟩⟩
  rintro ⟨before, after, he, rfl, hno⟩
  obtain ⟨more, hm, rfl⟩ | ⟨more, rfl, hm⟩ := append_eq_append_cons_iff.mp he
  · refine absurd ⟨before, more, hm, rfl, ?_⟩ (hx.not_openBracket before.length)
    exact fun hc => hno (List.mem_append_left _ hc)
  · cases more with
    | nil => rw [List.append_nil]
    | cons d more =>
      obtain ⟨-, rfl⟩ := List.cons.inj hm
      exact absurd (List.mem_append_right _ (List.mem_cons_self ..)) ho

theorem OpenBracket.prefix_drop {place : Nat} (h : OpenBracket cs place) :
    ['['] <+: cs.drop place := by
  obtain ⟨before, after, rfl, rfl, -⟩ := h
  rw [List.drop_left]
  exact List.prefix_append ['['] after

theorem OpenGroup.prefix_drop {place : Nat} (h : OpenGroup cs place) :
    ['('] <+: cs.drop place := by
  obtain ⟨before, after, rfl, rfl, -⟩ := h
  rw [List.drop_left]
  exact List.prefix_append ['('] after

theorem Balanced.not_openGroup (h : Balanced cs) (place : Nat) : ¬ OpenGroup cs place := by
  rintro ⟨before, after, rfl, -, hopen⟩
  have hbefore := h.sane before (List.prefix_append ..)
  have hafter := hopen after List.prefix_rfl
  have hall := h.settled
  rw [List.count_append, List.count_append, List.count_cons_self,
    List.count_cons_of_ne (by decide)] at hall
  omega

/-- The innermost open group is the one with which balanced text begins. -/
theorem isGreatest_openGroup (xs : List Char) (h : Balanced ys) :
    IsGreatest {place | OpenGroup (xs ++ '(' :: ys) place} xs.length := by
  refine ⟨⟨xs, ys, rfl, rfl, h.sane⟩, ?_⟩
  rintro place ⟨before, after, he, rfl, hopen⟩
  obtain ⟨more, rfl, -⟩ | ⟨more, rfl, hm⟩ := append_eq_append_cons_iff.mp he
  · rw [List.length_append]
    exact Nat.le_add_right ..
  · cases more with
    | nil => rw [List.append_nil]
    | cons d more =>
      obtain ⟨-, rfl⟩ := List.cons.inj hm
      exact absurd ⟨more, after, rfl, rfl, hopen⟩ (h.not_openGroup more.length)

end Text

namespace Stretch

variable {start : Nat} {ps : List Piece} {items : List Item} {ls : List Lexeme}

/-- No bracket opens or closes in what a bracket holds. -/
theorem notMem_bracket (h : Stretch start ps items)
    (hw : ∀ w, .run w ∈ ps → ∀ c ∈ w, isWordChar c = true) (he : items = ls.map .single)
    (hk : ∀ l ∈ ls, l.kind ≠ .bracket) : ∀ c ∈ ['[', ']'], c ∉ ps.flatMap chars := by
  induction h generalizing ls with
  | nil => exact fun _ _ => List.not_mem_nil
  | blank _ hb ih =>
    intro c hc
    have hmark := notMem_of_forall (List.forall_mem_singleton.mpr hb) (by decide) c hc
    rw [List.flatMap_append, List.mem_append, not_or]
    exact ⟨ih (fun w h => hw w (List.mem_append_left _ h)) he hk c hc, hmark⟩
  | run _ w ih =>
    intro c hc
    obtain ⟨ls, new, rfl, hi, -⟩ := List.map_eq_append_iff.mp he.symm
    have hrun := notMem_of_forall (hw w (by simp)) (by decide) c hc
    rw [List.flatMap_append, List.mem_append, not_or, List.flatMap_singleton]
    exact ⟨ih (fun w h => hw w (List.mem_append_left _ h)) hi.symm
      (fun l hl => hk l (List.mem_append_left _ hl)) c hc, hrun⟩
  | atSign _ ih =>
    intro c hc
    obtain ⟨ls, new, rfl, hi, -⟩ := List.map_eq_append_iff.mp he.symm
    rw [List.flatMap_append, List.mem_append, not_or]
    refine ⟨ih (fun w h => hw w (List.mem_append_left _ h)) hi.symm
      (fun l hl => hk l (List.mem_append_left _ hl)) c hc, ?_⟩
    exact notMem_of_forall (p := (· == '@')) (List.forall_mem_singleton.mpr rfl) (by decide) c hc
  | bracket _ _ hl =>
    obtain ⟨ls, new, rfl, -, hnew⟩ := List.map_eq_append_iff.mp he.symm
    obtain ⟨l, rfl, hl'⟩ := List.map_eq_singleton_iff.mp hnew
    obtain rfl := Item.single.inj hl'
    exact absurd (Lexer.kind_arraySuffix hl).1 (hk l (by simp))
  | comma | group =>
    obtain ⟨-, new, -, -, hnew⟩ := List.map_eq_append_iff.mp he.symm
    obtain ⟨l, -, hl⟩ := List.map_eq_singleton_iff.mp hnew
    cases hl

end Stretch

namespace Lexeme

theorem not_bracket_of_mem_ofRun {w : List Char} {offset : Nat} {l : Lexeme}
    (h : l ∈ ofRun w offset) : l.kind ≠ .bracket := by
  rw [ofRun, List.mem_append] at h
  rcases h with h | h <;> split at h
  · cases h
  · rw [List.mem_singleton.mp h]
    intro he
    cases he
  · cases h
  · rw [List.mem_singleton.mp h]
    exact kindOfWord_ne_bracket _

end Lexeme

namespace Lexer

variable {s s' : Lexer} {offset : Nat} {ps : List Piece} {e : Error}

/-- What has been read since a bracket opened has no bracket in it. -/
def Flat (s : Lexer) : Prop := ∀ b, s.bracket = some b → ∀ l ∈ b.inside, l.kind ≠ .bracket

namespace Flat

theorem of_no_bracket (h : s.bracket = none) : s.Flat := by
  intro b hb
  rw [h] at hb
  cases hb

theorem add {l : Lexeme} (h : s.Flat) (hl : l.kind ≠ .bracket) : (s.add l).Flat := by
  unfold Lexer.add
  split
  next b hb =>
    rintro _ ⟨⟩
    exact List.forall_mem_cons.mpr ⟨hl, h b hb⟩
  next hb => exact of_no_bracket hb

theorem foldl_add {ls : List Lexeme} (h : s.Flat) (hl : ∀ l ∈ ls, l.kind ≠ .bracket) :
    (ls.foldl Lexer.add s).Flat := by
  induction ls generalizing s with
  | nil => exact h
  | cons l ls ih =>
    rw [List.forall_mem_cons] at hl
    exact ih (h.add hl.1) hl.2

theorem punctuation (h : s.Flat) (hr : s.punctuation c offset = .ok s') : s'.Flat := by
  unfold Lexer.punctuation at hr
  split at hr
  · obtain ⟨hb, hr⟩ := outsideBracket_bind hr
    obtain rfl := Except.ok.inj hr
    exact of_no_bracket hb
  · obtain ⟨hb, hr⟩ := outsideBracket_bind hr
    unfold closeGroup at hr
    split at hr
    · cases hr
    · obtain rfl := Except.ok.inj hr
      exact of_no_bracket hb
  · obtain ⟨hb, hr⟩ := outsideBracket_bind hr
    unfold addComma at hr
    split at hr
    · cases hr
    · obtain rfl := Except.ok.inj hr
      exact of_no_bracket hb
  · obtain ⟨-, hr⟩ := outsideBracket_bind hr
    obtain rfl := Except.ok.inj hr
    rintro _ ⟨⟩
    exact nofun
  · unfold closeBracket at hr
    split at hr
    · cases hr
    · obtain ⟨l, -, rfl⟩ := map_eq_ok_iff.mp hr
      exact of_no_bracket rfl
  · obtain rfl := Except.ok.inj hr
    exact h.add nofun
  · cases hr

theorem addPiece {p : Piece} (h : s.Flat) (hr : s.addPiece p offset = .ok s') : s'.Flat := by
  unfold Lexer.addPiece at hr
  split at hr
  next w =>
    obtain rfl := Except.ok.inj hr
    rw [addRun_eq]
    exact h.foldl_add fun l => Lexeme.not_bracket_of_mem_ofRun
  next =>
    split at hr
    · obtain rfl := Except.ok.inj hr
      exact h
    · exact h.punctuation hr

theorem run (h : s.Flat) (hr : s.run offset ps = .ok s') : s'.Flat := by
  induction ps generalizing s offset with
  | nil =>
    obtain rfl := Except.ok.inj hr
    exact h
  | cons p ps ih =>
    obtain ⟨s₁, hs, hr⟩ := bind_eq_ok_iff.mp hr
    exact ih (h.addPiece hs) hr

end Flat

/-- Pieces fail to be read at one that is not a word, no matter what comes after it. -/
theorem exists_of_run_eq_error (h : s.run offset ps = .error e) :
    ∃ before c after s', ps = before ++ .mark c :: after ∧ s.run offset before = .ok s' ∧
      s'.punctuation c (offset + extent before) = .error e ∧
      ∀ rest, s.run offset (before ++ .mark c :: rest) = .error e := by
  induction ps generalizing s offset with
  | nil => cases h
  | cons p ps ih =>
    rcases bind_eq_error_iff.mp h with hp | ⟨s₁, hs, hr⟩
    · cases p with
      | run w => cases hp
      | mark c =>
        refine ⟨[], c, ps, s, rfl, rfl, ?_, fun rest => bind_eq_error_iff.mpr (.inl hp)⟩
        unfold addPiece at hp
        split at hp
        next hm => cases hm
        next hm =>
          obtain rfl := Piece.mark.inj hm
          split at hp
          · cases hp
          · exact hp
    · obtain ⟨before, c, after, s', rfl, hb, hc, hrest⟩ := ih hr
      refine ⟨p :: before, c, after, s', rfl, ?_, ?_, fun rest => ?_⟩
      · rw [run_cons hs, hb]
      · rwa [extent_cons, ← Nat.add_assoc]
      · rw [List.cons_append, run_cons hs, hrest]

/-- What is reported is a mark itself, or a number that the open bracket holds. -/
def Reports (s : Lexer) (c : Char) (offset : Nat) (e : Error) : Prop :=
  ∃ fault token place, e = .lexical fault token place ∧
    (token = String.singleton c ∧ place = offset ∨
      ∃ b, s.bracket = some b ∧ ∃ l ∈ b.inside, l.kind = .number ∧ token = l.text ∧
        place = l.offset)

namespace Reports

theorem mark (s : Lexer) (fault : LexicalFault) (c : Char) (offset : Nat) :
    s.Reports c offset (.lexical fault (String.singleton c) offset) :=
  ⟨_, _, _, rfl, .inl ⟨rfl, rfl⟩⟩

theorem outsideBracket_bind {f : Unit → Except Error Lexer}
    (h : s.outsideBracket c offset >>= f = .error e) (hf : f () = .error e → s.Reports c offset e) :
    s.Reports c offset e := by
  rcases bind_eq_error_iff.mp h with h | ⟨_, -, h⟩
  · unfold outsideBracket at h
    split at h
    · obtain rfl := Except.error.inj h
      exact mark ..
    · cases h
  · exact hf h

theorem closeGroup (h : s.closeGroup offset = .error e) : s.Reports ')' offset e := by
  unfold Lexer.closeGroup at h
  split at h
  · obtain rfl := Except.error.inj h
    exact mark ..
  · cases h

theorem addComma (h : s.addComma offset = .error e) : s.Reports ',' offset e := by
  unfold Lexer.addComma at h
  split at h
  · obtain rfl := Except.error.inj h
    exact mark ..
  · cases h

theorem arraySuffix {b : OpenBracket} (hb : s.bracket = some b)
    (h : arraySuffix b offset = .error e) : s.Reports ']' offset e := by
  unfold Lexer.arraySuffix at h
  split at h
  · cases h
  next l hl =>
    split at h
    next hk =>
      split at h
      · cases h
      · obtain rfl := Except.error.inj h
        exact ⟨_, _, _, rfl, .inr ⟨b, hb, l, hl ▸ List.mem_singleton_self l, hk, rfl, rfl⟩⟩
    next =>
      obtain rfl := Except.error.inj h
      exact mark ..
  next =>
    obtain rfl := Except.error.inj h
    exact mark ..

theorem closeBracket (h : s.closeBracket offset = .error e) : s.Reports ']' offset e := by
  unfold Lexer.closeBracket at h
  split at h
  · obtain rfl := Except.error.inj h
    exact mark ..
  next b hb => exact arraySuffix hb (map_eq_error_iff.mp h)

theorem punctuation (h : s.punctuation c offset = .error e) : s.Reports c offset e := by
  unfold Lexer.punctuation at h
  split at h
  · exact outsideBracket_bind h nofun
  · exact outsideBracket_bind h closeGroup
  · exact outsideBracket_bind h addComma
  · exact outsideBracket_bind h nofun
  · exact closeBracket h
  · cases h
  · obtain rfl := Except.error.inj h
    exact mark ..

end Reports

/-- Where a piece of a text is reported, it stands. -/
theorem Follows.reports {read after : List Piece} (h : Follows read s)
    (hw : ∀ w, .run w ∈ read → ∀ d ∈ w, isWordChar d = true)
    (hr : s.Reports c (extent read) e) :
    ∃ fault token place, e = .lexical fault token place ∧ token ≠ "" ∧
      token.toList <+: ((read ++ .mark c :: after).flatMap chars).drop place := by
  obtain ⟨fault, token, place, rfl, ⟨rfl, rfl⟩ | ⟨b, hb, l, hl, hk, rfl, rfl⟩⟩ := hr
  · refine ⟨fault, _, _, rfl, by simp, ?_⟩
    rw [List.flatMap_append, extent, List.drop_left]
    simp [chars]
  · cases h with
    | outside => cases hb
    | @inside before ps qs _ _ ls hu hs hi =>
      obtain rfl := Option.some.inj hb
      have hfill := hi.fill fun w hm => hw w (by simp [hm])
      rw [Item.lexemesOf_map_single] at hfill
      obtain ⟨hne, left, right, hqs, hplace⟩ := hfill.found l (List.mem_reverse.mp hl)
      have hopening : l.opening = l.text.toList := if_neg (by rw [hk]; decide)
      rw [hopening] at hne hqs
      refine ⟨fault, _, _, rfl, by simpa using hne, ?_⟩
      have htext : (before ++ ps ++ mark '[' :: qs ++ mark c :: after).flatMap chars =
          ((before ++ ps ++ [mark '[']).flatMap chars ++ left) ++
            (l.text.toList ++ (right ++ (mark c :: after).flatMap chars)) := by
        simp [hqs, chars]
      have hlength : l.offset = ((before ++ ps ++ [mark '[']).flatMap chars ++ left).length := by
        rw [hplace, List.length_append, ← extent, extent_concat, extent_append, length_mark]
      rw [htext, hlength, List.drop_left]
      exact List.prefix_append ..

/-- Around the groups that are open all brackets have been closed. -/
theorem Under.suffixed {before : List Piece} {groups : List OpenGroup} (h : Under before groups)
    (hw : ∀ w, .run w ∈ before → ∀ d ∈ w, isWordChar d = true) :
    Text.Suffixed (before.flatMap chars) := by
  induction h with
  | nil => exact .of_notMem nofun nofun
  | cons _ hs ih =>
    rw [List.flatMap_append, List.flatMap_append]
    refine ((ih fun w h => hw w (by simp [h])).append ?_).append ?_
    · exact (hs.formed fun w h => hw w (by simp [h])).suffixed
    · exact .of_notMem (by simp [chars]) (by simp [chars])

/-- What is at fault at the end of a text, and where: the bracket that is open, or if there is none
the innermost group that is. -/
inductive Unclosed (cs : List Char) : LexicalFault → String → Nat → Prop where
  | bracket {place : Nat} (h : ∀ p, Text.OpenBracket cs p ↔ p = place) :
      Unclosed cs .openBracket "[" place
  | group {place : Nat} (hno : ∀ p, ¬ Text.OpenBracket cs p)
      (h : IsGreatest {p | Text.OpenGroup cs p} place) : Unclosed cs .openGroup "(" place

theorem Follows.unclosed {read : List Piece} (h : Follows read s) (hf : s.Flat)
    (hw : ∀ w, .run w ∈ read → ∀ d ∈ w, isWordChar d = true) (hr : s.finish = .error e) :
    ∃ fault token place, e = .lexical fault token place ∧
      Unclosed (read.flatMap chars) fault token place := by
  cases h with
  | @inside before ps qs _ _ ls hu hs hi =>
    obtain rfl := Except.error.inj hr
    have hsuffixed := (hu.suffixed fun w h => hw w (by simp [h])).append
      (hs.formed fun w h => hw w (by simp [h])).suffixed
    have hinside := hi.notMem_bracket (fun w h => hw w (by simp [h])) rfl
      fun l hl => hf _ rfl l (List.mem_reverse.mpr hl)
    have hplace : (before.flatMap chars ++ ps.flatMap chars).length = extent before + extent ps :=
      List.length_append
    have h := Text.openBracket_iff hsuffixed (hinside '[' (by simp)) (hinside ']' (by simp))
    rw [hplace] at h
    refine ⟨_, _, _, rfl, .bracket ?_⟩
    simpa [chars] using h
  | @outside before ps groups items hu hs =>
    cases hu with
    | nil => cases hr
    | @cons before' ps' _ items' hu' hs' =>
      obtain rfl := Except.error.inj hr
      have hformed := hs.formed fun w h => hw w (by simp [h])
      have hsuffixed := ((hu'.cons hs').suffixed fun w h => hw w (List.mem_append_left _ h)).append
        hformed.suffixed
      have hplace : (before'.flatMap chars ++ ps'.flatMap chars).length =
          extent before' + extent ps' := List.length_append
      have h := Text.isGreatest_openGroup (before'.flatMap chars ++ ps'.flatMap chars)
        hformed.balanced
      rw [hplace] at h
      refine ⟨_, _, _, rfl, .group ?_ ?_⟩
      · rw [List.flatMap_append]
        exact hsuffixed.not_openBracket
      · simpa [chars] using h

end Lexer

namespace Token

/-- Each piece of the text can be read after those before it, so that only its end can fail. -/
def ReadToEnd (text : String) : Prop :=
  ∃ s, Lexer.initial.run 0 (ofChars text.toList) = .ok s

theorem scan_eq_error_iff {text : String} {e : Error} :
    scan text = .error e ↔ Lexer.initial.run 0 (ofChars text.toList) = .error e ∨
      ∃ s, Lexer.initial.run 0 (ofChars text.toList) = .ok s ∧ s.finish = .error e := by
  rw [scan, map_eq_error_iff, Item.ofChars, bind_eq_error_iff]

/-- A stray character after a text that has been read to its end is what is reported then. -/
theorem scan_append_stray {text : String} (h : ReadToEnd text) :
    ∃ place, scan (text ++ "#") = .error (.lexical .strayCharacter "#" place) := by
  obtain ⟨s, hs⟩ := h
  obtain ⟨next, hnext⟩ := Lexer.run_append hs
  refine ⟨next, scan_eq_error_iff.mpr (.inl ?_)⟩
  rw [show (text ++ "#").toList = text.toList ++ ['#'] from String.toList_append,
    ofChars_append _ (apart_cons (by decide) []), hnext]
  rfl

theorem ReadToEnd.unclosed {text : String} {e : Error} (h : ReadToEnd text)
    (he : scan text = .error e) :
    ∃ fault token place, e = .lexical fault token place ∧
      Lexer.Unclosed text.toList fault token place := by
  obtain ⟨s, hs⟩ := h
  have hfinish : s.finish = .error e := by
    rcases scan_eq_error_iff.mp he with he | ⟨s', hs', he⟩
    · rw [hs] at he
      cases he
    · rw [hs] at hs'
      exact Except.ok.inj hs' ▸ he
  have hinitial : Lexer.Follows [] Lexer.initial := .outside .nil .nil
  have hflat : s.Flat := (Lexer.Flat.of_no_bracket (s := Lexer.initial) rfl).run hs
  have h := (hinitial.run hs).unclosed hflat (fun w hw => word_of_mem_ofChars hw) hfinish
  rwa [List.nil_append, flatMap_chars_ofChars] at h

/-- What cannot be read is reported where it stands, and whatever may follow it. -/
theorem located_of_not_readToEnd {text : String} {e : Error} (h : ¬ ReadToEnd text)
    (he : scan text = .error e) :
    (∃ fault token place, e = .lexical fault token place ∧ token ≠ "" ∧
      token.toList <+: text.toList.drop place) ∧ ∀ more, scan (text ++ more) = .error e := by
  have hrun : Lexer.initial.run 0 (ofChars text.toList) = .error e := by
    rcases scan_eq_error_iff.mp he with he | ⟨s, hs, -⟩
    · exact he
    · exact absurd ⟨s, hs⟩ h
  obtain ⟨read, c, after, s, hps, hs, hc, hrest⟩ := Lexer.exists_of_run_eq_error hrun
  have hdivided : Divided (read ++ mark c :: after) := hps ▸ divided_ofChars _
  have htext : text.toList = (read ++ mark c :: after).flatMap chars := by
    rw [← hps, flatMap_chars_ofChars]
  have hw : ∀ w, .run w ∈ read → ∀ d ∈ w, isWordChar d = true := by
    intro w hm
    have hmem : .run w ∈ ofChars text.toList := hps ▸ List.mem_append_left _ hm
    exact word_of_mem_ofChars hmem
  constructor
  · have hinitial : Lexer.Follows [] Lexer.initial := .outside .nil .nil
    rw [Nat.zero_add] at hc
    rw [htext]
    exact Lexer.Follows.reports (hinitial.run hs) hw (.punctuation hc)
  · intro more
    have hmark : isWordChar c = false := by
      cases hdivided.right with
      | mark hc => exact hc
    have hmore : (text ++ more).toList =
        read.flatMap chars ++ c :: (after.flatMap chars ++ more.toList) := by
      rw [String.toList_append, htext]
      simp [chars]
    rw [scan_eq_error_iff, hmore, ofChars_append _ (apart_cons hmark _), ofChars_cons_mark hmark,
      hdivided.left.ofChars_flatMap, hrest]
    exact .inl rfl

/-- A text that has no tokens is reported at a piece of it, where that stands. Either nothing that
may follow makes a difference, or the text has been read to its end: then it is reported at the
bracket that is open, if there is one, and else at the innermost group that is. -/
theorem scan_error_located {text : String} {e : Error} (h : scan text = .error e) :
    ∃ fault token place, e = .lexical fault token place ∧ token ≠ "" ∧
      token.toList <+: text.toList.drop place ∧
      ((∀ more, scan (text ++ more) = .error e) ↔ ¬ ReadToEnd text) ∧
      (ReadToEnd text → Lexer.Unclosed text.toList fault token place) := by
  by_cases hr : ReadToEnd text
  · obtain ⟨fault, token, place, rfl, hu⟩ := hr.unclosed h
    obtain ⟨place', hstray⟩ := scan_append_stray hr
    have hmore : ¬ ∀ more, scan (text ++ more) = .error (.lexical fault token place) := by
      intro hall
      rw [hall "#"] at hstray
      cases hstray
      cases hu
    refine ⟨fault, token, place, rfl, ?_, ?_, by simp [hmore, hr], fun _ => hu⟩
    · cases hu <;> decide
    · cases hu with
      | bracket h => exact ((h place).mpr rfl).prefix_drop
      | group _ h => exact h.1.prefix_drop
  · obtain ⟨⟨fault, token, place, rfl, hne, hfront⟩, hmore⟩ := located_of_not_readToEnd hr h
    exact ⟨fault, token, place, rfl, hne, hfront, by simp [hmore, hr], fun h => absurd h hr⟩

theorem scan_error_located_lengths :
    (∀ more, scan ("(a[18446744073709551616]" ++ more) =
      .error (.lexical .arrayLength "18446744073709551616" 3)) ∧
    Lexer.Unclosed "(a[18446744073709551616".toList .openBracket "[" 2 ∧
    Lexer.Unclosed "(a,(b,c)[1]".toList .openGroup "(" 0 := by
  refine ⟨?_, ?_, ?_⟩
  · have hrun : Lexer.initial.run 0 (ofChars "(a[18446744073709551616]".toList) =
        .error (.lexical .arrayLength "18446744073709551616" 3) := rfl
    have h := scan_eq_error_iff.mpr (.inl hrun)
    obtain ⟨-, -, -, -, -, -, hmore, -⟩ := scan_error_located h
    refine hmore.mpr ?_
    rintro ⟨s, hs⟩
    rw [hrun] at hs
    cases hs
  · have h : scan "(a[18446744073709551616" = .error (.lexical .openBracket "[" 2) := rfl
    obtain ⟨fault, token, place, he, -, -, -, hu⟩ := scan_error_located h
    obtain ⟨rfl, rfl, rfl⟩ := Error.lexical.inj he
    exact hu ⟨_, rfl⟩
  · have h : scan "(a,(b,c)[1]" = .error (.lexical .openGroup "(" 0) := rfl
    obtain ⟨fault, token, place, he, -, -, -, hu⟩ := scan_error_located h
    obtain ⟨rfl, rfl, rfl⟩ := Error.lexical.inj he
    exact hu ⟨_, rfl⟩

end Token

end ContractAbi
