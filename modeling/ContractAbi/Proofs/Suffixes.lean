import ContractAbi.Proofs.Spacing

/-!
Array suffixes of a text and brackets of its tokens. A suffix that is taken off from the back is a
bracket of the lexer, and where all blanks are inside of groups every bracket at the end of the
tokens is a suffix.
-/

namespace ContractAbi

open Piece
open Item (CommaFree symbolsOf)

namespace Text

/-- More parentheses are open than closed before every blank. -/
def BlanksGrouped (cs : List Char) : Prop :=
  ∀ before c after, cs = before ++ c :: after → isBlank c = true →
    before.count ')' < before.count '('

theorem blanksGrouped_iff {cs : List Char} :
    (∀ i : Fin cs.length, isBlank cs[i] = true → (cs.take i).count ')' < (cs.take i).count '(') ↔
      BlanksGrouped cs := by
  constructor
  · rintro h before c after rfl hc
    simpa using h ⟨before.length, by simp⟩ (by simpa using hc)
  · intro h i hi
    exact h (cs.take i) cs[i] (cs.drop (i + 1)) (by simp) hi

instance (cs : List Char) : Decidable (BlanksGrouped cs) := decidable_of_iff _ blanksGrouped_iff

namespace BlanksGrouped

variable {c : Char} {cs xs ys zs : List Char}

theorem of_append (h : BlanksGrouped (xs ++ ys)) : BlanksGrouped xs := by
  rintro before c after rfl hc
  exact h before c (after ++ ys) (by simp) hc

theorem head (h : BlanksGrouped (c :: cs)) : isBlank c = false := by
  apply Bool.eq_false_iff.mpr
  intro hc
  have hcount := h [] c cs rfl hc
  simp at hcount

theorem tail (h : BlanksGrouped (c :: cs)) (hc : c ≠ '(') : BlanksGrouped cs := by
  rintro before b after rfl hb
  have hcount := h (c :: before) b after rfl hb
  rw [List.count_cons_of_ne hc] at hcount
  exact (List.count_le_count_cons ..).trans_lt hcount

/-- Nothing is left out up to the first parenthesis. -/
theorem split (h : BlanksGrouped cs) (ho : '(' ∉ xs)
    (he : cs.filter (fun c => !isBlank c) = xs ++ ys) :
    ∃ rest, cs = xs ++ rest ∧ BlanksGrouped rest ∧ rest.filter (fun c => !isBlank c) = ys := by
  induction xs generalizing cs with
  | nil => exact ⟨cs, rfl, h, he⟩
  | cons x xs ih =>
    rw [List.mem_cons, not_or] at ho
    cases cs with
    | nil => cases he
    | cons c cs =>
      rw [List.filter_cons_of_pos (by rw [h.head]; rfl)] at he
      obtain ⟨rfl, htail⟩ := List.cons.inj he
      obtain ⟨rest, rfl, hrest, hys⟩ := ih (h.tail (Ne.symm ho.1)) ho.2 htail
      exact ⟨rest, rfl, hrest, hys⟩

theorem eq_of_filter (h : BlanksGrouped cs) (ho : '(' ∉ xs)
    (he : cs.filter (fun c => !isBlank c) = xs) : cs = xs := by
  rw [← List.append_nil xs] at he
  obtain ⟨rest, rfl, hrest, hnil⟩ := h.split ho he
  cases rest with
  | nil => exact List.append_nil xs
  | cons c rest =>
    rw [List.filter_cons_of_pos (by rw [hrest.head]; rfl)] at hnil
    cases hnil

theorem split_paren (h : BlanksGrouped cs) (ho : '(' ∉ xs)
    (he : cs.filter (fun c => !isBlank c) = xs ++ '(' :: ys) : ∃ rest, cs = xs ++ '(' :: rest := by
  obtain ⟨rest, rfl, hrest, hparen⟩ := h.split ho he
  cases rest with
  | nil => cases hparen
  | cons c rest =>
    rw [List.filter_cons_of_pos (by rw [hrest.head]; rfl)] at hparen
    obtain ⟨rfl, -⟩ := List.cons.inj hparen
    exact ⟨rest, rfl⟩

/-- No blanks are where as many parentheses are closed as open. -/
theorem not_blank (h : BlanksGrouped (xs ++ ys ++ zs)) (hx : Balanced xs) (hy : '(' ∉ ys) :
    ∀ c ∈ ys, isBlank c = false := by
  intro c hc
  apply Bool.eq_false_iff.mpr
  intro hb
  obtain ⟨before, after, rfl⟩ := List.append_of_mem hc
  have hcount := h (xs ++ before) c (after ++ zs) (by simp) hb
  have hnone : before.count '(' = 0 :=
    List.count_eq_zero_of_not_mem fun hm => hy (List.mem_append_left _ hm)
  rw [List.count_append, List.count_append, hx.settled, hnone] at hcount
  omega

end BlanksGrouped

end Text

namespace Item

theorem symbolsOf_shiftAll (k : Nat) (items : List Item) :
    symbolsOf (shiftAll k items) = symbolsOf items := by
  have h := layout_moved k 0 0 0 0 items
  rw [← map_symbol_layout 0 (0 + 0) 0, h, List.map_map, ← map_symbol_layout 0 0 0]
  rfl

end Item

/-- Where a text stands makes no difference to its symbols. -/
theorem Token.stretch_of_scan {text : String} {tokens : List Token} (h : scan text = .ok tokens)
    (start : Nat) :
    ∃ items, Stretch start (ofChars text.toList) items ∧ CommaFree items ∧
      symbolsOf items = tokens.map symbol := by
  have hl := (exists_scan_iff text).mp ⟨tokens, h⟩
  cases hl.pending.layered with
  | last hr =>
    obtain ⟨items, hs, hc⟩ := hr start
    obtain ⟨items', hs', rfl⟩ := @Stretch.unshift _ _ start 0 hs
    have hitems : Item.ofChars text.toList = .ok items' :=
      Item.ofChars_eq_ok.mpr ⟨hs', Item.commaFree_shiftAll.mp (hc rfl)⟩
    obtain ⟨again, hagain, rfl⟩ := map_eq_ok_iff.mp h
    obtain rfl := Except.ok.inj (hitems.symm.trans hagain)
    refine ⟨_, hs, hc rfl, ?_⟩
    rw [Item.symbolsOf_shiftAll, Item.tokens, Item.map_symbol_layout]

namespace Stretch

variable {start : Nat} {ps : List Piece} {items : List Item} {cs digits : List Char}
  {length : Option UInt64}

/-- An array suffix without blanks in it is one bracket. -/
theorem suffix (h : Stretch start ps items) (hl : Ty.suffixLength "" digits = .ok length) :
    ∃ l, l.symbol = .bracket length ∧
      Stretch start (ps ++ .mark '[' :: ofChars digits ++ [.mark ']']) (items ++ [.single l]) := by
  obtain ⟨rfl, rfl⟩ | ⟨hne, n, hn, rfl⟩ := Ty.suffixLength_eq_ok.mp hl
  · have hinside : Stretch (start + extent ps + 1) [] (([] : List Lexeme).map .single) := .nil
    exact ⟨⟨.bracket, "[]", start + extent ps, none⟩, rfl, h.bracket hinside rfl⟩
  · have hd := Ty.isDigit_of_suffixLength hl
    have hrun := (@Stretch.nil (start + extent ps + 1)).run digits
    rw [Lexeme.ofRun_digits hne hd] at hrun
    have hclose : Lexer.arraySuffix
        ⟨start + extent ps, [Lexeme.number digits (start + extent ps + 1 + extent [])].reverse⟩
        (start + extent ps + 1 + extent [.run digits]) = .ok _ :=
      Lexer.arraySuffix_number rfl hn _ _
    rw [ofChars_word hne fun c hc => isWordChar_of_isDigit (hd c hc)]
    exact ⟨_, rfl, h.bracket hrun hclose⟩

end Stretch

theorem ofChars_suffix (cs digits : List Char) :
    ofChars (cs ++ '[' :: digits ++ [']']) =
      ofChars cs ++ .mark '[' :: ofChars digits ++ [.mark ']'] := by
  have hapart : Apart ('[' :: digits ++ [']']) := apart_cons (by decide) _
  rw [List.append_assoc, ofChars_append _ hapart, ofChars_between (by decide) (by decide),
    show ofChars [] = [] from rfl, List.append_nil, List.append_assoc]

/-- Every suffix after a text is one more bracket after its items. -/
theorem Ty.Suffixes.stretch {base cs : List Char} {lengths : List (Option UInt64)}
    (h : Suffixes base cs lengths) {start : Nat} {items : List Item}
    (hbase : Stretch start (ofChars base) items) :
    ∃ ls : List Lexeme, ls.map Lexeme.symbol = lengths.map .bracket ∧
      Stretch start (ofChars cs) (items ++ ls.map .single) := by
  induction h with
  | base => exact ⟨[], rfl, by rwa [List.map_nil, List.append_nil]⟩
  | blank _ hc ih =>
    obtain ⟨ls, hls, hs⟩ := ih
    refine ⟨ls, hls, ?_⟩
    have hmark := isWordChar_of_isBlank hc
    rw [ofChars_append _ (apart_cons hmark _), ofChars_cons_mark hmark]
    exact hs.blank hc
  | suffix _ hl ih =>
    obtain ⟨ls, hls, hs⟩ := ih
    obtain ⟨l, hl, hs⟩ := hs.suffix (hl "")
    refine ⟨ls ++ [l], ?_, ?_⟩
    · rw [List.map_append, List.map_append, hls, List.map_singleton, hl]
      rfl
    · rw [ofChars_suffix, List.map_append, ← List.append_assoc]
      exact hs

namespace Lexeme

theorem kind_of_mem_ofRun {w : List Char} {offset : Nat} {l : Lexeme} (h : l ∈ ofRun w offset) :
    l.kind ≠ .bracket := by
  rw [ofRun, List.mem_append] at h
  rcases h with h | h
  · split at h
    · cases h
    · rw [List.mem_singleton.mp h]
      intro hk
      cases hk
  · split at h
    · cases h
    · rw [List.mem_singleton.mp h]
      exact kindOfWord_ne_bracket _

theorem kind_of_symbol {l : Lexeme} {length : Option UInt64} (h : l.symbol = .bracket length) :
    l.kind = .bracket := by
  obtain ⟨kind, text, offset, value⟩ := l
  cases kind <;> first | rfl | cases h

/-- A run does not end in a bracket, whatever comes before it. -/
theorem getLast?_ofRun {w : List Char} (hne : w ≠ []) (ss : List Symbol) {offset : Nat}
    (length : Option UInt64) :
    (ss ++ (ofRun w offset).map symbol).getLast? ≠ some (.bracket length) := by
  intro hlast
  obtain hls | ⟨ls, l, hls⟩ := List.eq_nil_or_concat (ofRun w offset)
  · exact hne (ofRun_eq_nil hls)
  · rw [List.concat_eq_append] at hls
    have hl : l.symbol = .bracket length := by simpa [hls] using hlast
    exact kind_of_mem_ofRun (hls ▸ List.mem_concat_self) (kind_of_symbol hl)

end Lexeme

namespace Stretch

variable {start openAt closeAt : Nat} {qs : List Piece} {items : List Item} {cs : List Char}
  {ls : List Lexeme} {l : Lexeme}

/-- What brackets hold besides blanks is the length. -/
theorem suffixLength_of_bracket (h : Stretch start qs (ls.map .single))
    (hl : Lexer.arraySuffix ⟨openAt, ls.reverse⟩ closeAt = .ok l)
    (hb : ∀ c ∈ qs.flatMap chars, Text.isBlank c = false) :
    l.symbol = .bracket l.value ∧
      ∀ type, Ty.suffixLength type (qs.flatMap chars) = .ok l.value := by
  have hnil {cs : List Char} (hc : ∀ c ∈ cs, Text.isBlank c = true)
      (hno : ∀ c ∈ cs, Text.isBlank c = false) : cs = [] := by
    apply List.eq_nil_iff_forall_not_mem.mpr
    intro c hm
    exact Bool.false_ne_true ((hno c hm).symm.trans (hc c hm))
  obtain ⟨-, he | ⟨n, length, he, hk, hv⟩⟩ := Lexer.kind_arraySuffix hl
  · obtain rfl := List.reverse_eq_nil_iff.mp he
    obtain rfl := Except.ok.inj hl
    rw [hnil (h.blank_of_nil rfl) hb]
    exact ⟨rfl, fun _ => rfl⟩
  · obtain rfl : ls = [n] := by simpa using congrArg List.reverse he
    obtain rfl := Except.ok.inj ((Lexer.arraySuffix_number hk hv openAt closeAt).symm.trans hl)
    obtain ⟨before, digits, after, hqs, hbefore, hd, hn, hafter⟩ := h.digits_of_number rfl hk
    rw [hn] at hv
    have hne := (Text.isSome_word64?_iff.mp (Option.isSome_of_eq_some hv)).1
    rw [hqs, List.forall_mem_append, List.forall_mem_append] at hb
    rw [hqs, hnil hbefore hb.1.1, hnil hafter hb.2, List.nil_append, List.append_nil]
    exact ⟨rfl, fun _ => Ty.suffixLength_eq_ok.mpr (.inr ⟨hne, length, hv, rfl⟩)⟩

/-- Where no blanks are outside of all groups, the last bracket is the last suffix. -/
theorem last_suffix (h : Stretch start (ofChars cs) items) (hb : Text.BlanksGrouped cs) :
    (∃ before digits length more l, cs = before ++ '[' :: digits ++ [']'] ∧
      (∀ type, Ty.suffixLength type digits = .ok length) ∧ items = more ++ [.single l] ∧
        l.symbol = .bracket length ∧ Stretch start (ofChars before) more) ∨
    (∀ c, cs.getLast? = some c → Text.isBlank c = false ∧ c ≠ ']') ∧
      ∀ length, (symbolsOf items).getLast? ≠ some (.bracket length) := by
  have hdivided := divided_ofChars cs
  have hword : ∀ w, .run w ∈ ofChars cs → ∀ c ∈ w, isWordChar c = true :=
    fun w => word_of_mem_ofChars
  have hchars := flatMap_chars_ofChars cs
  generalize ofChars cs = ps at h hdivided hword hchars
  cases h with
  | nil =>
    subst hchars
    exact .inr ⟨nofun, nofun⟩
  | @blank _ c ps _ h hc =>
    rw [List.flatMap_append, List.flatMap_singleton, chars] at hchars
    have hbalanced := (h.formed fun w hw => hword w (List.mem_append_left _ hw)).balanced
    have hopen : '(' ∉ [c] := by
      rintro hm
      rw [List.mem_singleton] at hm
      subst hm
      cases hc
    rw [← hchars, ← List.append_nil (_ ++ [c])] at hb
    rw [hb.not_blank hbalanced hopen c (List.mem_singleton_self c)] at hc
    cases hc
  | @run _ ps more h w =>
    right
    cases hdivided.right with
    | run hne hw =>
      refine ⟨?_, ?_⟩
      · intro d hd
        have hc : isWordChar d = true := by
          rw [← hchars, List.flatMap_append, List.flatMap_singleton, chars,
            List.getLast?_append_of_ne_nil _ hne] at hd
          exact hw d (List.mem_of_getLast? hd)
        refine ⟨isBlank_of_isWordChar hc, ?_⟩
        rintro rfl
        cases hc
      · rw [Item.symbolsOf_append, Item.symbolsOf_map_single]
        exact Lexeme.getLast?_ofRun hne _
  | atSign | comma =>
    refine .inr ⟨?_, ?_⟩
    · simp [← hchars, chars, Text.isBlank]
    · simp [Item.symbols, Lexeme.symbol, Symbol.of]
  | group =>
    rw [List.flatMap_append, List.flatMap_singleton, chars] at hchars
    refine .inr ⟨?_, ?_⟩
    · rw [← hchars, List.getLast?_concat]
      simp [Text.isBlank]
    · rw [Item.symbolsOf_append, Item.symbolsOf_cons, Item.symbolsOf_nil, List.append_nil,
        Item.symbols, ← List.append_assoc, List.getLast?_concat]
      simp
  | @bracket _ ps qs more ls l h hi hl =>
    left
    have hps : ofChars (ps.flatMap chars) = ps := by
      rw [List.append_assoc] at hdivided
      exact hdivided.left.ofChars_flatMap
    have hbalanced := (h.formed fun w hw => hword w (by simp [hw])).balanced
    have hsplit : cs = ps.flatMap chars ++ ('[' :: qs.flatMap chars) ++ [']'] := by
      rw [← hchars]
      simp [chars]
    have hopen : '(' ∉ '[' :: qs.flatMap chars :=
      fun hm => (hi.arraySuffix hl).notMem (by decide) (by decide) (by decide) (by decide)
        (List.mem_append_left _ hm)
    rw [hsplit] at hb
    have hblank := (List.forall_mem_cons.mp (hb.not_blank hbalanced hopen)).2
    obtain ⟨hsymbol, hlength⟩ := hi.suffixLength_of_bracket hl hblank
    exact ⟨_, _, _, more, l, hsplit, hlength, rfl, hsymbol, hps.symm ▸ h⟩

end Stretch

/-- Taking off suffixes takes off all the brackets at the end. -/
theorem Stretch.exists_suffixes {start : Nat} {items : List Item} {cs : List Char}
    (h : Stretch start (ofChars cs) items) (hb : Text.BlanksGrouped cs) :
    ∃ base lengths inner, ∃ ls : List Lexeme, Ty.Suffixes base cs lengths ∧
      Text.BlanksGrouped base ∧ Stretch start (ofChars base) inner ∧
      items = inner ++ ls.map .single ∧ ls.map Lexeme.symbol = lengths.map .bracket ∧
      ∀ length, (symbolsOf inner).getLast? ≠ some (.bracket length) := by
  induction hn : cs.length using Nat.strong_induction_on generalizing cs items with
  | _ n ih =>
    subst hn
    obtain ⟨before, digits, length, more, l, rfl, hl, rfl, hsymbol, hbefore⟩ | ⟨hend, hlast⟩ :=
      h.last_suffix hb
    · rw [List.append_assoc] at hb
      obtain ⟨base, lengths, inner, ls, hs, hbase, hinner, rfl, hls, hlast⟩ :=
        ih _ (by simp) hbefore hb.of_append rfl
      refine ⟨base, lengths ++ [length], inner, ls ++ [l], hs.suffix hl, hbase, hinner, ?_, ?_,
        hlast⟩
      · rw [List.map_append, List.append_assoc]
        rfl
      · rw [List.map_append, List.map_append, hls, List.map_singleton, hsymbol]
        rfl
    · exact ⟨cs, [], items, [], .base hend, hb, h, by simp, rfl, hlast⟩

/-- The brackets at the end of symbols are found in one way only. -/
theorem Symbol.append_brackets_inj {xs ys : List Symbol} {ls ms : List (Option UInt64)}
    (hx : ∀ length, xs.getLast? ≠ some (.bracket length))
    (hy : ∀ length, ys.getLast? ≠ some (.bracket length)) :
    xs ++ ls.map .bracket = ys ++ ms.map .bracket ↔ xs = ys ∧ ls = ms := by
  constructor
  · intro h
    induction ls using List.reverseRecOn generalizing ms with
    | nil =>
      obtain rfl | ⟨ms, m, rfl⟩ := List.eq_nil_or_concat ms
      · simpa using h
      · rw [List.map_nil, List.append_nil] at h
        exact absurd (by rw [h]; simp) (hx m)
    | append_singleton ls l ih =>
      obtain rfl | ⟨ms, m, rfl⟩ := List.eq_nil_or_concat ms
      · rw [List.map_nil, List.append_nil] at h
        exact absurd (by rw [← h]; simp) (hy l)
      · rw [List.concat_eq_append, List.map_append, List.map_append, ← List.append_assoc,
          ← List.append_assoc] at h
        obtain ⟨hinit, hlast⟩ := List.append_inj' h rfl
        obtain ⟨rfl, rfl⟩ := ih hinit
        simpa using hlast
  · rintro ⟨rfl, rfl⟩
    rfl

end ContractAbi
