import ContractAbi.Proofs.Acceptance
import ContractAbi.Proofs.Extraction
import ContractAbi.Proofs.Printing
import ContractAbi.Proofs.TypeText

/-!
What tokens keep of a text: all of it but the blanks, each token where it stands. Written with a
space between every two, they are read again as they are, but for their offsets.
-/

namespace ContractAbi

open Piece
open Item (CommaFree Proper)

namespace Item

mutual

/-- The lexemes of an item, and those of its parentheses and commas. -/
def lexemes : Item → List Lexeme
  | single l => [l]
  | comma offset => [⟨.comma, ",", offset, none⟩]
  | group openAt body closeAt =>
    ⟨.openParen, "(", openAt, none⟩ :: lexemesOf body ++ [⟨.closeParen, ")", closeAt, none⟩]

def lexemesOf : List Item → List Lexeme
  | [] => []
  | item :: rest => item.lexemes ++ lexemesOf rest

end

theorem lexemesOf_append (xs ys : List Item) :
    lexemesOf (xs ++ ys) = lexemesOf xs ++ lexemesOf ys := by
  induction xs with
  | nil => rfl
  | cons x xs ih => rw [List.cons_append, lexemesOf, lexemesOf, ih, List.append_assoc]

theorem lexemesOf_singleton (item : Item) : lexemesOf [item] = item.lexemes := by
  rw [lexemesOf, lexemesOf, List.append_nil]

theorem lexemesOf_map_single (ls : List Lexeme) : lexemesOf (ls.map single) = ls := by
  induction ls with
  | nil => rfl
  | cons l ls ih => rw [List.map_cons, lexemesOf, ih, lexemes, List.singleton_append]

end Item

/-- What a token is by itself, wherever it stands among other tokens. -/
def Token.lexeme (t : Token) : Lexeme := ⟨t.kind, t.text, t.offset, t.value⟩

namespace Item

mutual

theorem map_lexeme_tokensAt (start depth previous next : Nat) :
    (item : Item) → (item.tokensAt start depth previous next).map Token.lexeme = item.lexemes
  | single _ | comma _ => rfl
  | group _ body _ => by
    simp [tokensAt, lexemes, Token.lexeme, map_lexeme_layout _ _ _ body]

theorem map_lexeme_layout (start depth previous : Nat) :
    (items : List Item) → (layout start depth previous items).map Token.lexeme = lexemesOf items
  | [] => rfl
  | item :: rest => by
    rw [layout, List.map_append, map_lexeme_tokensAt _ _ _ _ item, map_lexeme_layout _ _ _ rest,
      lexemesOf]

end

end Item

theorem Piece.flatMap_chars_between (c d : Char) (ps : List Piece) :
    (mark c :: ps ++ [mark d]).flatMap chars = c :: ps.flatMap chars ++ [d] := by
  simp [chars]

namespace Lexeme

theorem kindOfWord_ne_bracket (text : String) : kindOfWord text ≠ .bracket := by
  unfold kindOfWord
  split
  · exact nofun
  · split <;> exact nofun

/-- What a lexeme begins with where it stands. There may be blanks inside of a bracket. -/
def opening (l : Lexeme) : List Char := if l.kind = .bracket then ['['] else l.text.toList

/-- Lexemes in a row in a part of a text that begins at `start`, which has nothing besides them but
blanks. -/
structure Fill (start : Nat) (cs : List Char) (ls : List Lexeme) : Prop where
  ordered : ls.Pairwise fun l m => l.offset < m.offset
  found : ∀ l ∈ ls, l.opening ≠ [] ∧
    ∃ before after, cs = before ++ l.opening ++ after ∧ l.offset = start + before.length
  texts : ls.flatMap (fun l => l.text.toList) = cs.filter fun c => !Text.isBlank c

namespace Fill

variable {start : Nat} {cs ds : List Char} {ls ms : List Lexeme} {l : Lexeme}

theorem bounds (h : Fill start cs ls) (hl : l ∈ ls) :
    start ≤ l.offset ∧ l.offset < start + cs.length := by
  obtain ⟨hne, before, after, rfl, hoffset⟩ := h.found l hl
  have := List.length_pos_iff.mpr hne
  simp only [List.length_append]
  omega

theorem nil (start : Nat) : Fill start [] [] := ⟨.nil, by simp, rfl⟩

theorem append (h : Fill start cs ls) (hm : Fill (start + cs.length) ds ms) :
    Fill start (cs ++ ds) (ls ++ ms) := by
  refine ⟨List.pairwise_append.mpr ⟨h.ordered, hm.ordered, ?_⟩, ?_, ?_⟩
  · intro l hl m hmem
    exact (h.bounds hl).2.trans_le (hm.bounds hmem).1
  · intro l hl
    obtain hl | hl := List.mem_append.mp hl
    · obtain ⟨hne, before, after, rfl, hoffset⟩ := h.found l hl
      exact ⟨hne, before, after ++ ds, by simp, hoffset⟩
    · obtain ⟨hne, before, after, rfl, hoffset⟩ := hm.found l hl
      exact ⟨hne, cs ++ before, after, by simp, by simp [hoffset, Nat.add_assoc]⟩
  · rw [List.flatMap_append, List.filter_append, h.texts, hm.texts]

theorem pieces {ps : List Piece} (h : Fill start (ps.flatMap chars) ls) (qs : List Piece)
    (hm : Fill (start + extent ps) (qs.flatMap chars) ms) :
    Fill start ((ps ++ qs).flatMap chars) (ls ++ ms) := by
  rw [List.flatMap_append]
  exact h.append hm

theorem blank {c : Char} (hc : Text.isBlank c = true) (start : Nat) : Fill start [c] [] :=
  ⟨.nil, by simp, by simp [hc]⟩

/-- A lexeme that is written as it stands. -/
theorem single (hk : l.kind ≠ .bracket) (hne : l.text.toList ≠ [])
    (hb : ∀ c ∈ l.text.toList, Text.isBlank c = false) : Fill l.offset l.text.toList [l] := by
  have ho : l.opening = l.text.toList := if_neg hk
  refine ⟨List.pairwise_singleton .., ?_, ?_⟩
  · rw [List.forall_mem_singleton, ho]
    exact ⟨hne, [], [], by simp, rfl⟩
  · rw [List.filter_eq_self.mpr fun c hc => by rw [hb c hc]; rfl]
    simp

theorem mark (kind : Token.Kind) {c : Char} (hk : kind ≠ .bracket) (hc : Text.isBlank c = false)
    (start : Nat) : Fill start [c] [⟨kind, String.singleton c, start, none⟩] := by
  have h := @single ⟨kind, String.singleton c, start, none⟩ hk (by simp) (by simpa using hc)
  simpa using h

/-- A bracket is written like what stands in it, with its two marks around that. -/
theorem text_arraySuffix {openAt closeAt : Nat}
    (h : Lexer.arraySuffix ⟨openAt, ls.reverse⟩ closeAt = .ok l) :
    l.kind = .bracket ∧ l.offset = openAt ∧
      l.text.toList = '[' :: ls.flatMap (fun m => m.text.toList) ++ [']'] := by
  obtain ⟨-, hb | ⟨n, length, hb, hk, hv⟩⟩ := Lexer.kind_arraySuffix h
  · obtain rfl := List.reverse_eq_nil_iff.mp hb
    obtain rfl := Except.ok.inj h
    exact ⟨rfl, rfl, by simp⟩
  · obtain rfl : ls = [n] := by simpa using congrArg List.reverse hb
    obtain rfl := Except.ok.inj ((Lexer.arraySuffix_number hk hv openAt closeAt).symm.trans h)
    exact ⟨rfl, rfl, by simp⟩

theorem bracket {openAt closeAt : Nat} (h : Fill start cs ls)
    (hl : Lexer.arraySuffix ⟨openAt, ls.reverse⟩ closeAt = .ok l) :
    Fill openAt ('[' :: cs ++ [']']) [l] := by
  obtain ⟨hk, hoffset, htext⟩ := text_arraySuffix hl
  have ho : l.opening = ['['] := if_pos hk
  have hopen : Text.isBlank '[' = false := by decide
  have hclose : Text.isBlank ']' = false := by decide
  refine ⟨List.pairwise_singleton .., ?_, ?_⟩
  · rw [List.forall_mem_singleton, ho]
    exact ⟨by simp, [], cs ++ [']'], rfl, hoffset⟩
  · rw [List.flatMap_singleton, htext, h.texts]
    simp [hopen, hclose]

/-- A run is divided into its digits and its letters, with nothing between them. -/
theorem ofRun {w : List Char} (hw : ∀ c ∈ w, isWordChar c = true) (start : Nat) :
    Fill start w (Lexeme.ofRun w start) := by
  have hblank : ∀ c ∈ w, Text.isBlank c = false := fun c hc => isBlank_of_isWordChar (hw c hc)
  have hsplit := List.takeWhile_append_dropWhile (p := Char.isDigit) (l := w)
  have hdigits : Fill start (w.takeWhile Char.isDigit)
      (if (w.takeWhile Char.isDigit).isEmpty then [] else
        [number (w.takeWhile Char.isDigit) start]) := by
    split
    next he => rw [List.isEmpty_iff.mp he]; exact nil start
    next he =>
      have h := @single (number (w.takeWhile Char.isDigit) start) nofun
      simp only [number, String.toList_ofList] at h
      exact h (by simpa using he) fun c hc => hblank c (List.takeWhile_prefix _ |>.subset hc)
  have hletters (at' : Nat) : Fill at' (w.dropWhile Char.isDigit)
      (if (w.dropWhile Char.isDigit).isEmpty then [] else
        [word (w.dropWhile Char.isDigit) at']) := by
    split
    next he => rw [List.isEmpty_iff.mp he]; exact nil at'
    next he =>
      have h := @single (word (w.dropWhile Char.isDigit) at') (kindOfWord_ne_bracket _)
      simp only [word, String.toList_ofList] at h
      exact h (by simpa using he) fun c hc => hblank c (List.dropWhile_suffix _ |>.subset hc)
  have h := hdigits.append (hletters _)
  rwa [hsplit] at h

end Fill

end Lexeme

/-- The lexemes of a stretch are all that it has but blanks. -/
theorem Stretch.fill {start : Nat} {ps : List Piece} {items : List Item}
    (h : Stretch start ps items) (hw : ∀ w, .run w ∈ ps → ∀ c ∈ w, isWordChar c = true) :
    Lexeme.Fill start (ps.flatMap chars) (Item.lexemesOf items) := by
  induction h with
  | nil => exact .nil _
  | @blank _ c _ items _ hc ih =>
    rw [← List.append_nil (Item.lexemesOf items)]
    exact (ih fun w h => hw w (by simp [h])).pieces [.mark c] (.blank hc _)
  | run _ w ih =>
    rw [Item.lexemesOf_append, Item.lexemesOf_map_single]
    refine (ih fun w h => hw w (by simp [h])).pieces [.run w] ?_
    rw [List.flatMap_singleton]
    exact .ofRun (hw w (by simp)) _
  | atSign _ ih =>
    rw [Item.lexemesOf_append]
    exact (ih fun w h => hw w (by simp [h])).pieces [.mark '@'] (.mark _ (by decide) (by decide) _)
  | comma _ ih =>
    rw [Item.lexemesOf_append]
    exact (ih fun w h => hw w (by simp [h])).pieces [.mark ','] (.mark _ (by decide) (by decide) _)
  | @bracket _ ps qs _ _ _ _ _ hl ih ihi =>
    have hi := ihi fun w h => hw w (by simp [h])
    rw [Item.lexemesOf_map_single] at hi
    rw [Item.lexemesOf_append, Item.lexemesOf_singleton, List.append_assoc]
    refine (ih fun w h => hw w (by simp [h])).pieces _ ?_
    rw [flatMap_chars_between]
    exact hi.bracket hl
  | @group start ps qs _ _ _ _ ih ihi =>
    have hi := ihi fun w h => hw w (by simp [h])
    rw [Item.lexemesOf_append, Item.lexemesOf_singleton, List.append_assoc]
    refine (ih fun w h => hw w (by simp [h])).pieces _ ?_
    have hopen := Lexeme.Fill.mark .openParen (c := '(') (by decide) (by decide)
    have hclose := Lexeme.Fill.mark .closeParen (c := ')') (by decide) (by decide)
    have hend : start + extent ps + (['('] ++ qs.flatMap chars).length =
        start + extent ps + 1 + extent qs := by
      rw [List.length_append, ← Nat.add_assoc]
      rfl
    have h := ((hopen _).append hi).append (hclose _)
    rw [hend] at h
    rw [flatMap_chars_between]
    exact h

namespace Lexeme

/-- Lexemes with a space after each. -/
def spaced (ls : List Lexeme) : List Char := ls.flatMap fun l => l.text.toList ++ [' ']

theorem spaced_append (ls ms : List Lexeme) : spaced (ls ++ ms) = spaced ls ++ spaced ms :=
  List.flatMap_append

theorem spaced_singleton (l : Lexeme) : spaced [l] = l.text.toList ++ [' '] :=
  List.flatMap_singleton ..

/-- After a space there is always something new. -/
theorem ofChars_spaced_append (ls : List Lexeme) (cs : List Char) :
    ofChars (spaced ls ++ cs) = ofChars (spaced ls) ++ ofChars cs := by
  induction ls with
  | nil => rfl
  | cons l ls ih =>
    rw [spaced, List.flatMap_cons, ← spaced, List.append_assoc, ofChars_append_mark (by decide),
      ofChars_append_mark (by decide), ih, List.append_assoc]

end Lexeme

namespace Item

/-- Items without their offsets. -/
def unplaced (items : List Item) : List Item := relocateAll (fun _ => 0) items

theorem unplaced_append (xs ys : List Item) : unplaced (xs ++ ys) = unplaced xs ++ unplaced ys :=
  relocateAll_append ..

end Item

theorem Text.isBlank_space : isBlank ' ' = true := by decide

/-- The lexemes of the items are read as such items again when spaces divide them. -/
def Respaced (items : List Item) : Prop :=
  ∀ start, ∃ again, Stretch start (ofChars (Lexeme.spaced (Item.lexemesOf items))) again ∧
    Item.unplaced again = Item.unplaced items

namespace Respaced

variable {xs ys : List Item} {l : Lexeme}

theorem nil : Respaced [] := fun _ => ⟨[], .nil, rfl⟩

theorem append (hx : Respaced xs) (hy : Respaced ys) : Respaced (xs ++ ys) := by
  intro start
  obtain ⟨xs', hxs, hx⟩ := hx start
  obtain ⟨ys', hys, hy⟩ := hy (start + extent (ofChars (Lexeme.spaced (Item.lexemesOf xs))))
  refine ⟨xs' ++ ys', ?_, by rw [Item.unplaced_append, Item.unplaced_append, hx, hy]⟩
  rw [Item.lexemesOf_append, Lexeme.spaced_append, Lexeme.ofChars_spaced_append]
  exact hxs.append hys

/-- A lexeme that is read by itself is read with a space after it. -/
theorem single (h : ∀ start,
    Stretch start (ofChars l.text.toList) [.single { l with offset := start }]) :
    Respaced [.single l] := by
  intro start
  refine ⟨[.single { l with offset := start }], ?_, rfl⟩
  rw [Item.lexemesOf_singleton, Item.lexemes, Lexeme.spaced_singleton,
    ofChars_append _ (apart_cons (by decide) _)]
  exact (h start).blank Text.isBlank_space

theorem comma (offset : Nat) : Respaced [.comma offset] := by
  intro start
  have htext : ofChars (",".toList ++ [' ']) = [.mark ',', .mark ' '] := by decide
  rw [Item.lexemesOf_singleton, Item.lexemes, Lexeme.spaced_singleton, htext]
  exact ⟨[.comma start], Stretch.nil.comma.blank Text.isBlank_space, rfl⟩

theorem group (h : Respaced xs) (openAt closeAt : Nat) : Respaced [.group openAt xs closeAt] := by
  intro start
  obtain ⟨again, hs, hu⟩ := h (start + 2)
  have htext : Lexeme.spaced (Item.lexemesOf [.group openAt xs closeAt]) =
      '(' :: (' ' :: Lexeme.spaced (Item.lexemesOf xs)) ++ ')' :: [' '] := by
    rw [Item.lexemesOf_singleton, Item.lexemes]
    simp [Lexeme.spaced]
  rw [htext, ofChars_between (by decide) (by decide), ofChars_cons_mark (by decide)]
  have hspace : Stretch (start + 1) [.mark ' '] [] := Stretch.nil.blank Text.isBlank_space
  have hgroup := (@Stretch.nil start).group (hspace.append hs)
  refine ⟨_, hgroup.blank Text.isBlank_space, ?_⟩
  simpa [Item.unplaced, Item.relocateAll, Item.relocate] using hu

theorem number {digits : List Char} (hne : digits ≠ []) (hd : ∀ c ∈ digits, c.isDigit = true)
    (offset : Nat) : Respaced [.single (.number digits offset)] := by
  apply single
  intro start
  have h := (@Stretch.nil start).run digits
  rw [Lexeme.ofRun_digits hne hd] at h
  rw [Lexeme.number, String.toList_ofList,
    ofChars_word hne fun c hc => isWordChar_of_isDigit (hd c hc)]
  exact h

theorem word {letters : List Char} (hne : letters ≠ [])
    (hw : ∀ c ∈ letters, isWordChar c = true) (hd : letters.takeWhile Char.isDigit = [])
    (offset : Nat) : Respaced [.single (.word letters offset)] := by
  apply single
  intro start
  have h := (@Stretch.nil start).run letters
  have hdrop : letters.dropWhile Char.isDigit = letters := by
    simpa [hd] using List.takeWhile_append_dropWhile (p := Char.isDigit) (l := letters)
  have hrun (at' : Nat) : Lexeme.ofRun letters at' = [.word letters at'] := by
    rw [Lexeme.ofRun, hd, hdrop]
    simp [hne]
  rw [hrun] at h
  rw [Lexeme.word, String.toList_ofList, ofChars_word hne hw]
  exact h

theorem ofRun {w : List Char} (hw : ∀ c ∈ w, isWordChar c = true) (offset : Nat) :
    Respaced ((Lexeme.ofRun w offset).map .single) := by
  have hdrop : (w.dropWhile Char.isDigit).takeWhile Char.isDigit = [] := by
    rw [List.takeWhile_eq_nil_iff]
    intro hl
    have hhead := List.head_dropWhile_not Char.isDigit (List.ne_nil_of_length_pos hl)
    simpa [List.head_eq_getElem] using hhead
  rw [Lexeme.ofRun, List.map_append]
  apply append
  · split
    next => exact nil
    next he =>
      exact number (by simpa using he) (fun c hc => List.mem_takeWhile_imp hc) offset
  · split
    next => exact nil
    next he =>
      have hword : ∀ c ∈ w.dropWhile Char.isDigit, isWordChar c = true :=
        fun c hc => hw c (List.dropWhile_suffix _ |>.subset hc)
      exact word (by simpa using he) hword hdrop _

/-- Blanks in a bracket are lost with its text. -/
theorem bracket {start openAt closeAt : Nat} {qs : List Piece} {ls : List Lexeme}
    (hi : Stretch start qs (ls.map .single))
    (hl : Lexer.arraySuffix ⟨openAt, ls.reverse⟩ closeAt = .ok l) : Respaced [.single l] := by
  apply single
  intro start
  obtain ⟨-, hb | ⟨n, length, hb, hk, hv⟩⟩ := Lexer.kind_arraySuffix hl
  · obtain rfl := List.reverse_eq_nil_iff.mp hb
    obtain rfl := Except.ok.inj hl
    have htext : ofChars "[]".toList = [.mark '[', .mark ']'] := by decide
    rw [htext]
    have hinside : Stretch (start + 1) [] (([] : List Lexeme).map .single) := .nil
    exact (@Stretch.nil start).bracket hinside rfl
  · obtain rfl : ls = [n] := by simpa using congrArg List.reverse hb
    obtain rfl := Except.ok.inj ((Lexer.arraySuffix_number hk hv openAt closeAt).symm.trans hl)
    obtain ⟨-, digits, -, -, -, hd, hn, -⟩ := hi.digits_of_number rfl hk
    rw [hn] at hv
    have hne := (Text.isSome_word64?_iff.mp (Option.isSome_of_eq_some hv)).1
    have htext : ("[" ++ n.text ++ "]").toList = '[' :: digits ++ ']' :: [] := by
      rw [hn]
      simp [Lexeme.number]
    have hrun := (@Stretch.nil (start + 1)).run digits
    rw [Lexeme.ofRun_digits hne hd] at hrun
    have hclose : Lexer.arraySuffix ⟨start, [Lexeme.number digits (start + 1)].reverse⟩
        (start + 1 + extent [.run digits]) =
          .ok ⟨.bracket, "[" ++ n.text ++ "]", start, some length⟩ := by
      rw [hn]
      exact @Lexer.arraySuffix_number (.number digits (start + 1)) length rfl hv _ _
    rw [htext, ofChars_between (by decide) (by decide),
      ofChars_word hne fun c hc => isWordChar_of_isDigit (hd c hc)]
    exact (@Stretch.nil start).bracket hrun hclose

end Respaced

theorem Stretch.respaced {start : Nat} {ps : List Piece} {items : List Item}
    (h : Stretch start ps items) (hw : ∀ w, .run w ∈ ps → ∀ c ∈ w, isWordChar c = true) :
    Respaced items := by
  induction h with
  | nil => exact .nil
  | blank _ _ ih => exact ih fun w h => hw w (by simp [h])
  | run _ w ih => exact (ih fun w h => hw w (by simp [h])).append (.ofRun (hw w (by simp)) _)
  | atSign _ ih =>
    have hat : ofChars "@".toList = [.mark '@'] := by decide
    refine (ih fun w h => hw w (by simp [h])).append (.single fun start => ?_)
    rw [hat]
    exact Stretch.nil.atSign
  | comma _ ih => exact (ih fun w h => hw w (by simp [h])).append (.comma _)
  | bracket _ hi hl ih => exact (ih fun w h => hw w (by simp [h])).append (.bracket hi hl)
  | group _ _ ih ihi =>
    exact (ih fun w h => hw w (by simp [h])).append ((ihi fun w h => hw w (by simp [h])).group _ _)

theorem Stretch.of_append_blank {start : Nat} {ps : List Piece} {items : List Item} {c : Char}
    (h : Stretch start (ps ++ [.mark c]) items) (hc : Text.isBlank c = true) :
    Stretch start ps items := by
  generalize hqs : ps ++ [Piece.mark c] = qs at h
  cases h with
  | nil => simp at hqs
  | blank h _ => exact (List.append_inj' hqs rfl).1 ▸ h
  | run _ w => simpa using (List.append_inj' hqs rfl).2
  | atSign | comma | bracket | group =>
    obtain rfl : c = _ := by simpa using (List.append_inj' hqs rfl).2
    simp [Text.isBlank] at hc

theorem Item.forall₂_of_unplaced {xs ys : List Item} (h : unplaced ys = unplaced xs) :
    List.Forall₂ (fun t u => u = { t with offset := u.offset }) (tokens xs) (tokens ys) := by
  have hmap : (tokens xs).map (fun t => { t with offset := 0, depth := 0 + t.depth }) =
      (tokens ys).map fun t => { t with offset := 0, depth := 0 + t.depth } := by
    rw [tokens, tokens, ← layout_relocateAll (fun _ => 0), ← layout_relocateAll (fun _ => 0)]
    exact congrArg (layout 0 (0 + 0) 0) h.symm
  rw [← List.forall₂_eq_eq_eq, List.forall₂_map_left_iff, List.forall₂_map_right_iff] at hmap
  refine hmap.imp ?_
  intro t u htu
  cases t
  cases u
  simp_all

namespace Token

theorem display_ofTokens {tokens : List Token} (h : tokens ≠ []) :
    (Cursor.ofTokens tokens).display.toList ++ [' '] = Lexeme.spaced (tokens.map lexeme) := by
  change (" ".intercalate (tokens.map text)).toList ++ [' '] = _
  induction tokens with
  | nil => exact absurd rfl h
  | cons t rest ih =>
    cases rest with
    | nil => simp [Lexeme.spaced, lexeme]
    | cons u rest =>
      have hr := ih (List.cons_ne_nil _ _)
      rw [List.map_cons, String.intercalate_cons_of_ne_nil (by simp), String.toList_append,
        String.toList_append, List.append_assoc, hr]
      simp [Lexeme.spaced, lexeme]

/-- The lexemes of a text, and what becomes of them when they are written with spaces between. -/
theorem exists_scan_display {text : String} {tokens : List Token} (h : scan text = .ok tokens) :
    ∃ again, scan (Cursor.ofTokens tokens).display = .ok again ∧
      List.Forall₂ (fun t u => u = { t with offset := u.offset }) tokens again := by
  obtain ⟨items, hitems, rfl⟩ := map_eq_ok_iff.mp h
  obtain ⟨hs, hc⟩ := Item.ofChars_eq_ok.mp hitems
  obtain ⟨again, hagain, hu⟩ := hs.respaced (fun w hw => word_of_mem_ofChars hw) 0
  have hca : CommaFree again := by
    have hca : CommaFree (Item.unplaced items) := (Item.commaFree_relocateAll _).mpr hc
    rw [← hu] at hca
    exact (Item.commaFree_relocateAll _).mp hca
  refine ⟨Item.tokens again, map_eq_ok_iff.mpr ⟨again, ?_, rfl⟩, Item.forall₂_of_unplaced hu⟩
  refine Item.ofChars_eq_ok.mpr ⟨?_, hca⟩
  by_cases hne : Item.tokens items = []
  · rw [← Item.map_lexeme_layout 0 0 0, ← Item.tokens, hne] at hagain
    rw [hne]
    exact hagain
  · rw [← Item.map_lexeme_layout 0 0 0, ← Item.tokens, ← display_ofTokens hne,
      ofChars_append _ (apart_cons (by decide) _)] at hagain
    exact hagain.of_append_blank Text.isBlank_space

theorem fill_of_scan {text : String} {tokens : List Token} (h : scan text = .ok tokens) :
    Lexeme.Fill 0 text.toList (tokens.map lexeme) := by
  obtain ⟨items, hitems, rfl⟩ := map_eq_ok_iff.mp h
  have hfill := (Item.ofChars_eq_ok.mp hitems).1.fill fun w hw => word_of_mem_ofChars hw
  rw [flatMap_chars_ofChars] at hfill
  rwa [Item.tokens, Item.map_lexeme_layout]

/-- Where a token stands, the text begins with it; a bracket may have blanks in it there. -/
theorem prefix_of_scan {text : String} {tokens : List Token} {t : Token}
    (h : scan text = .ok tokens) (ht : t ∈ tokens) :
    (if t.kind = .bracket then ['['] else t.text.toList) <+: text.toList.drop t.offset := by
  obtain ⟨-, before, after, htext, hoffset⟩ := (fill_of_scan h).found _ (List.mem_map_of_mem ht)
  have hat : t.offset = before.length := by simpa [lexeme] using hoffset
  rw [htext, hat, List.append_assoc, List.drop_left]
  exact List.prefix_append ..

end Token

/-- What a text that has tokens is read as depends on their symbols alone. -/
theorem Param.parse_iff_of_scan {text : String} {tokens : List Token} {indexable : Bool} {p : Param}
    (h : Token.scan text = .ok tokens) :
    Param.parse indexable text = .ok p ↔
      Grammar.Parameter indexable (tokens.map Token.symbol) p := by
  rw [Param.parse, if_neg (Token.head?_of_scan h), Param.ofSignature_eq_ok]
  simp [h]

theorem Declaration.parse_iff_of_scan {text : String} {tokens : List Token} {d : Declaration}
    (h : Token.scan text = .ok tokens) :
    Declaration.parse text = .ok d ↔ Grammar.Declares (tokens.map Token.symbol) d := by
  rw [Declaration.parse, if_neg (Token.head?_of_scan h), Declaration.ofSignature_eq_ok]
  simp [h]

namespace Token

theorem map_symbol_eq_of_forall₂ {tokens again : List Token}
    (h : List.Forall₂ (fun t u => u = { t with offset := u.offset }) tokens again) :
    again.map symbol = tokens.map symbol := by
  rw [← List.forall₂_eq_eq_eq, List.forall₂_map_left_iff, List.forall₂_map_right_iff]
  refine h.flip.imp fun u t htu => ?_
  rw [htu]
  rfl

/-- The tokens of a text are all of it but its blanks, in their order and each where it stands; and
nothing but their offsets changes when they are written with single spaces between them. -/
theorem scan_loses_only_spacing {text : String} {tokens : List Token} (h : scan text = .ok tokens) :
    tokens.flatMap (fun t => t.text.toList) = text.toList.filter (fun c => !Text.isBlank c) ∧
    tokens.Pairwise (fun t u => t.offset < u.offset) ∧
    (∀ t ∈ tokens,
      (if t.kind = .bracket then ['['] else t.text.toList) <+: text.toList.drop t.offset) ∧
    (∃ again, scan (Cursor.ofTokens tokens).display = .ok again ∧
      List.Forall₂ (fun t u => u = { t with offset := u.offset }) tokens again) ∧
    (∀ indexable p, Param.parse indexable (Cursor.ofTokens tokens).display = .ok p ↔
      Param.parse indexable text = .ok p) ∧
    ∀ d, Declaration.parse (Cursor.ofTokens tokens).display = .ok d ↔
      Declaration.parse text = .ok d := by
  have hfill := fill_of_scan h
  obtain ⟨again, hagain, hsame⟩ := exists_scan_display h
  have hsymbols := map_symbol_eq_of_forall₂ hsame
  refine ⟨?_, ?_, fun t => prefix_of_scan h, ⟨again, hagain, hsame⟩, ?_, ?_⟩
  · rw [← hfill.texts, List.flatMap_map]
    rfl
  · exact (List.pairwise_map (f := lexeme)).mp hfill.ordered
  · intro indexable p
    rw [Param.parse_iff_of_scan hagain, Param.parse_iff_of_scan h, hsymbols]
  · intro d
    rw [Declaration.parse_iff_of_scan hagain, Declaration.parse_iff_of_scan h, hsymbols]

theorem scan_loses_only_spacing_glued :
    ∃ tokens, scan "function f(uint[ 02 ]a)view@12" = .ok tokens ∧
      (Cursor.ofTokens tokens).display = "function f ( uint [02] a ) view @ 12" ∧
      (∃ again, scan "function f ( uint [02] a ) view @ 12" = .ok again ∧
        List.Forall₂ (fun t u => u = { t with offset := u.offset }) tokens again) ∧
      Declaration.parse "function f ( uint [02] a ) view @ 12" =
        .ok (.function ⟨"f", by decide⟩ .view
          [⟨some ⟨"a", by decide⟩, none, .array (.elementary (.uint 31)) (some 2)⟩] []
          (some 12)) := by
  have h : scan "function f(uint[ 02 ]a)view@12" =
      .ok ((scan "function f(uint[ 02 ]a)view@12").toOption.getD []) :=
    eq_ok_of_toOption (by decide +kernel)
  have hdisplay :
      (Cursor.ofTokens ((scan "function f(uint[ 02 ]a)view@12").toOption.getD [])).display =
        "function f ( uint [02] a ) view @ 12" := by decide +kernel
  obtain ⟨-, -, -, hagain, -, hparse⟩ := scan_loses_only_spacing h
  rw [hdisplay] at hagain hparse
  exact ⟨_, h, hdisplay, hagain, (hparse _).mpr (eq_ok_of_toOption (by decide +kernel))⟩

end Token

end ContractAbi
