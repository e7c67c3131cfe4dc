import ContractAbi.Proofs.Groups
import ContractAbi.Proofs.Outcome

/-!
What the lexer makes of a text: items of which each lexeme is one that a text can have, and no comma
that belongs to no group.
-/

namespace ContractAbi

theorem isAlpha_iff_toNat {c : Char} :
    c.isAlpha = true ↔
      (65 ≤ c.toNat ∧ c.toNat ≤ 90) ∨ (97 ≤ c.toNat ∧ c.toNat ≤ 122) := by
  change (decide (c.val ≥ 65 ∧ c.val ≤ 90) ||
    (decide (c.val ≥ 97) && decide (c.val ≤ 122))) = true ↔ _
  simp only [Bool.or_eq_true, Bool.and_eq_true, decide_eq_true_eq, ge_iff_le,
    UInt32.le_iff_toNat_le]
  exact Iff.rfl

/-- Word characters are visible and have codes below the first blank beyond the plain ones. -/
theorem toNat_of_isWordChar {c : Char} (h : isWordChar c = true) :
    0x21 ≤ c.toNat ∧ c.toNat ≤ 0x7E := by
  simp only [isWordChar, Char.isAlphanum, Bool.or_eq_true, beq_iff_eq, isAlpha_iff_toNat,
    Char.isDigit_iff_toNat] at h
  rcases h with ((h | h) | rfl) | rfl
  · omega
  · change 48 ≤ c.toNat ∧ c.toNat ≤ 57 at h
    omega
  · decide
  · decide

theorem isWordChar_of_isBlank {c : Char} (h : Text.isBlank c = true) : isWordChar c = false := by
  apply Bool.eq_false_iff.mpr
  intro hw
  have hn := toNat_of_isWordChar hw
  simp only [Text.isBlank, Bool.or_eq_true, Bool.and_eq_true, decide_eq_true_eq, beq_iff_eq] at h
  omega

theorem isWordChar_of_isDigit {c : Char} (h : c.isDigit = true) : isWordChar c = true := by
  rw [isWordChar, Char.isAlphanum, h, Bool.or_true, Bool.true_or, Bool.true_or]

theorem isWordStart_of_not_digit {c : Char} (hw : isWordChar c = true) (hd : c.isDigit = false) :
    isWordStart c = true := by
  rwa [isWordChar, Char.isAlphanum, hd, Bool.or_false] at hw

namespace Piece

theorem ofChars_cons_mark {c : Char} (h : isWordChar c = false) (cs : List Char) :
    ofChars (c :: cs) = mark c :: ofChars cs := by
  rw [ofChars, List.foldr_cons, ← ofChars]
  unfold cons
  rw [if_neg (by simp [h])]

/-- A text does not go on with a word. -/
def Apart (cs : List Char) : Prop := ∀ c, cs.head? = some c → isWordChar c = false

theorem apart_nil : Apart [] := nofun

theorem apart_cons {c : Char} (h : isWordChar c = false) (cs : List Char) : Apart (c :: cs) := by
  intro d hd
  obtain rfl := Option.some.inj hd
  exact h

theorem Apart.append {cs ds : List Char} (hc : Apart cs) (hd : Apart ds) : Apart (cs ++ ds) := by
  cases cs with
  | nil => exact hd
  | cons c cs => exact hc

theorem cons_append (c : Char) (ps qs : List Piece) (h : ∀ w rest, qs ≠ run w :: rest) :
    cons c (ps ++ qs) = cons c ps ++ qs := by
  unfold cons
  by_cases hc : isWordChar c = true
  · rw [if_pos hc, if_pos hc]
    cases ps with
    | nil =>
      rw [List.nil_append]
      split
      next w rest => exact absurd rfl (h w rest)
      next => rfl
    | cons p ps => cases p <;> rfl
  · rw [if_neg hc, if_neg hc, List.cons_append]

theorem ofChars_append (cs : List Char) {ds : List Char} (h : Apart ds) :
    ofChars (cs ++ ds) = ofChars cs ++ ofChars ds := by
  have hno : ∀ w rest, ofChars ds ≠ run w :: rest := by
    cases ds with
    | nil => exact nofun
    | cons d ds =>
      rw [ofChars_cons_mark (h d rfl)]
      exact nofun
  induction cs with
  | nil => rfl
  | cons c cs ih =>
    rw [List.cons_append, ofChars, ofChars, List.foldr_cons, List.foldr_cons, ← ofChars, ← ofChars,
      ih, cons_append c _ _ hno]

theorem ofChars_between {c d : Char} (hc : isWordChar c = false) (hd : isWordChar d = false)
    (inner cs : List Char) :
    ofChars (c :: inner ++ d :: cs) = mark c :: ofChars inner ++ [mark d] ++ ofChars cs := by
  rw [List.cons_append, ofChars_cons_mark hc, ofChars_append inner (apart_cons hd cs),
    ofChars_cons_mark hd, List.append_assoc]
  rfl

/-- A word is one run, however long. -/
theorem ofChars_word {w : List Char} (hne : w ≠ []) (hw : ∀ c ∈ w, isWordChar c = true) :
    ofChars w = [run w] := by
  induction w with
  | nil => exact absurd rfl hne
  | cons c w ih =>
    rw [List.forall_mem_cons] at hw
    rw [ofChars, List.foldr_cons, ← ofChars]
    unfold cons
    rw [if_pos hw.1]
    cases w with
    | nil => rfl
    | cons d w => rw [ih (List.cons_ne_nil d w) hw.2]

theorem word_of_mem_ofChars {cs w : List Char} (h : run w ∈ ofChars cs) :
    ∀ c ∈ w, isWordChar c = true := by
  induction cs generalizing w with
  | nil => cases h
  | cons c cs ih =>
    rw [ofChars, List.foldr_cons, ← ofChars] at h
    unfold cons at h
    split at h
    next hc =>
      split at h
      next us rest hp =>
        rw [hp] at ih
        rcases List.mem_cons.mp h with he | hm
        · cases he
          exact List.forall_mem_cons.mpr ⟨hc, ih (List.mem_cons_self ..)⟩
        · exact ih (List.mem_cons_of_mem _ hm)
      next =>
        rcases List.mem_cons.mp h with he | hm
        · cases he
          simpa using hc
        · exact ih hm
    next =>
      rcases List.mem_cons.mp h with he | hm
      · cases he
      · exact ih hm

end Piece

namespace Lexeme

theorem symbol_word (w : List Char) (offset : Nat) :
    (word w offset).symbol = .of (kindOfWord (String.ofList w)) (String.ofList w) none := rfl

theorem symbol_number (digits : List Char) (offset : Nat) :
    (number digits offset).symbol = .number (String.ofList digits) := rfl

theorem lexical_number {digits : List Char} (hne : digits ≠ [])
    (hd : ∀ c ∈ digits, c.isDigit = true) (offset : Nat) :
    (number digits offset).symbol.Lexical := by
  have h := Text.decimal?_eq_some.mpr ⟨hne, hd, rfl⟩
  rw [symbol_number, Symbol.Lexical, String.toList_ofList, h]
  rfl

theorem lexical_word {w : List Char} (h : isIdentifier (String.ofList w) = true) (offset : Nat) :
    (word w offset).symbol.Lexical := by
  rw [symbol_word]
  unfold Symbol.of
  cases hk : kindOfWord (String.ofList w) with
  | keyword | type => exact hk
  | identifier => exact ⟨hk, h⟩
  | _ =>
    unfold kindOfWord at hk
    split at hk
    · cases hk
    · split at hk <;> cases hk

end Lexeme

namespace Lexer

open Item

/-- The items outside of all groups. -/
def outermost : List Item → List OpenGroup → List Item
  | items, [] => items
  | _, g :: groups => outermost g.before groups

theorem commaFree_outermost_cons {item : Item} (hi : item.isComma = false) {items : List Item}
    {groups : List OpenGroup} (h : CommaFree (outermost items groups)) :
    CommaFree (outermost (item :: items) groups) := by
  cases groups with
  | nil => exact commaFree_cons.mpr ⟨hi, h⟩
  | cons => exact h

theorem lexical_arraySuffix {b : OpenBracket} {offset : Nat} {l : Lexeme}
    (h : arraySuffix b offset = .ok l) : l.symbol.Lexical := by
  unfold arraySuffix at h
  split at h
  next =>
    obtain rfl := Except.ok.inj h
    trivial
  next =>
    split at h
    · split at h
      · obtain rfl := Except.ok.inj h
        trivial
      · cases h
    · cases h
  next => cases h

theorem outsideBracket_bind {s s' : Lexer} {c : Char} {offset : Nat}
    {f : Unit → Except Error Lexer} (h : s.outsideBracket c offset >>= f = .ok s') :
    s.bracket = none ∧ f () = .ok s' := by
  unfold outsideBracket at h
  split at h
  · cases h
  next hb => exact ⟨hb, h⟩

/-- What holds of a lexer all along. -/
structure Sound (s : Lexer) : Prop where
  items : Proper s.items
  groups : ∀ g ∈ s.groups, Proper g.before
  commaFree : CommaFree (outermost s.items s.groups)

theorem sound_initial : initial.Sound := ⟨trivial, by simp [initial], commaFree_nil⟩

namespace Sound

variable {s s' : Lexer} {offset : Nat}

theorem add {l : Lexeme} (h : s.Sound) (hl : l.symbol.Lexical) : (s.add l).Sound := by
  rw [Lexer.add]
  split
  · exact ⟨h.items, h.groups, h.commaFree⟩
  · exact ⟨⟨hl, h.items⟩, h.groups, commaFree_outermost_cons rfl h.commaFree⟩

theorem addRun {w : List Char} (h : s.Sound) (hw : ∀ c ∈ w, isWordChar c = true) :
    (s.addRun w offset).Sound := by
  have hdigits : ∀ c ∈ w.takeWhile Char.isDigit, c.isDigit = true :=
    fun c hc => List.mem_takeWhile_imp hc
  rw [Lexer.addRun]
  have h' : (if (w.takeWhile Char.isDigit).isEmpty = true then s
      else s.add (.number (w.takeWhile Char.isDigit) offset)).Sound := by
    split
    · exact h
    next hne => exact h.add (Lexeme.lexical_number (by simpa using hne) hdigits offset)
  split
  · exact h'
  next hne =>
    -- after its digits a run goes on with a letter, so the rest of it is a word
    apply h'.add
    apply Lexeme.lexical_word
    rw [isIdentifier, String.toList_ofList]
    have hletters : ∀ c ∈ w.dropWhile Char.isDigit, isWordChar c = true :=
      fun c hc => hw c ((List.dropWhile_sublist _).mem hc)
    have hfirst := List.head?_dropWhile_not Char.isDigit w
    cases hl : w.dropWhile Char.isDigit with
    | nil => simp [hl] at hne
    | cons c rest =>
      rw [hl, List.forall_mem_cons] at hletters
      rw [hl] at hfirst
      simp only [List.head?_cons] at hfirst
      rw [Bool.and_eq_true, List.all_eq_true]
      exact ⟨isWordStart_of_not_digit hletters.1 (by simpa using hfirst), hletters.2⟩

theorem closeGroup (h : s.Sound) (hr : s.closeGroup offset = .ok s') : s'.Sound := by
  unfold Lexer.closeGroup at hr
  split at hr
  next => cases hr
  next g groups hg =>
    obtain rfl := Except.ok.inj hr
    have hgroups := h.groups
    have hc := h.commaFree
    rw [hg, List.forall_mem_cons] at hgroups
    rw [hg] at hc
    have hbody : Proper s.items.reverse :=
      allOf_iff.mpr fun x hx => allOf_iff.mp h.items x (List.mem_reverse.mp hx)
    exact ⟨⟨hbody, hgroups.1⟩, hgroups.2, commaFree_outermost_cons rfl hc⟩

theorem addComma (h : s.Sound) (hr : s.addComma offset = .ok s') : s'.Sound := by
  unfold Lexer.addComma at hr
  split at hr
  next => cases hr
  next g groups hg =>
    obtain rfl := Except.ok.inj hr
    have hc := h.commaFree
    rw [hg] at hc
    exact ⟨⟨trivial, h.items⟩, h.groups, hg ▸ hc⟩

theorem closeBracket (h : s.Sound) (hr : s.closeBracket offset = .ok s') : s'.Sound := by
  unfold Lexer.closeBracket at hr
  split at hr
  next => cases hr
  next b hb =>
    obtain ⟨l, hl, rfl⟩ := map_eq_ok_iff.mp hr
    exact ⟨⟨lexical_arraySuffix hl, h.items⟩, h.groups, commaFree_outermost_cons rfl h.commaFree⟩

theorem punctuation {c : Char} (h : s.Sound) (hr : s.punctuation c offset = .ok s') : s'.Sound := by
  unfold Lexer.punctuation at hr
  split at hr
  · obtain ⟨-, hr⟩ := outsideBracket_bind hr
    obtain rfl := Except.ok.inj hr
    exact ⟨trivial, List.forall_mem_cons.mpr ⟨h.items, h.groups⟩, h.commaFree⟩
  · exact h.closeGroup (outsideBracket_bind hr).2
  · exact h.addComma (outsideBracket_bind hr).2
  · obtain ⟨-, hr⟩ := outsideBracket_bind hr
    obtain rfl := Except.ok.inj hr
    exact ⟨h.items, h.groups, h.commaFree⟩
  · exact h.closeBracket hr
  · obtain rfl := Except.ok.inj hr
    exact h.add trivial
  · cases hr

theorem addPiece {piece : Piece} (h : s.Sound)
    (hp : ∀ w, piece = .run w → ∀ c ∈ w, isWordChar c = true)
    (hr : s.addPiece piece offset = .ok s') : s'.Sound := by
  unfold Lexer.addPiece at hr
  split at hr
  next w =>
    obtain rfl := Except.ok.inj hr
    exact h.addRun (hp w rfl)
  next c =>
    split at hr
    · obtain rfl := Except.ok.inj hr
      exact h
    · exact h.punctuation hr

theorem run {pieces : List Piece} (h : s.Sound)
    (hp : ∀ w, .run w ∈ pieces → ∀ c ∈ w, isWordChar c = true)
    (hr : s.run offset pieces = .ok s') : s'.Sound := by
  induction pieces generalizing s offset with
  | nil =>
    obtain rfl := Except.ok.inj hr
    exact h
  | cons piece rest ih =>
    rw [Lexer.run] at hr
    cases hs : s.addPiece piece offset with
    | error e =>
      rw [hs] at hr
      cases hr
    | ok s₁ =>
      rw [hs] at hr
      have h₁ : s₁.Sound := h.addPiece (fun w hw => hp w (hw ▸ List.mem_cons_self ..)) hs
      exact ih h₁ (fun w hw => hp w (List.mem_cons_of_mem _ hw)) hr

theorem finish {items : List Item} (h : s.Sound) (hr : s.finish = .ok items) :
    CommaFree items ∧ Proper items := by
  unfold Lexer.finish at hr
  split at hr
  · cases hr
  · cases hr
  next hg =>
    obtain rfl := Except.ok.inj hr
    have hc := h.commaFree
    rw [hg] at hc
    exact ⟨fun x hx => hc x (List.mem_reverse.mp hx),
      allOf_iff.mpr fun x hx => allOf_iff.mp h.items x (List.mem_reverse.mp hx)⟩

end Sound

end Lexer

namespace Item

/-- The items of a text are laid out as the readers expect them. -/
theorem proper_ofChars {cs : List Char} {items : List Item} (h : ofChars cs = .ok items) :
    CommaFree items ∧ Proper items := by
  rw [ofChars] at h
  cases hs : Lexer.initial.run 0 (Piece.ofChars cs) with
  | error e =>
    rw [hs] at h
    cases h
  | ok s =>
    rw [hs] at h
    exact (Lexer.sound_initial.run (fun w hw => Piece.word_of_mem_ofChars hw) hs).finish h

end Item

namespace Token

theorem scan_eq_ok {text : String} {tokens : List Token} (h : scan text = .ok tokens) :
    ∃ items, Item.ofChars text.toList = .ok items ∧
      (Cursor.ofTokens tokens).Holds 0 items := by
  obtain ⟨items, hi, rfl⟩ := map_eq_ok_iff.mp h
  obtain ⟨hc, hp⟩ := Item.proper_ofChars hi
  exact ⟨items, hi, Cursor.holds_ofItems hc hp 0⟩

end Token

end ContractAbi
