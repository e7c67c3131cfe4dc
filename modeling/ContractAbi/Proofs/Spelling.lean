import ContractAbi.Param.Print
import ContractAbi.Proofs.Lexing

/-!
How symbols are spelled. Words and numbers end where a text does not go on with a word; blanks may
stand before every symbol.
-/

namespace ContractAbi

open Piece

/-- A text for symbols. Those outside of all groups have commas among them only if `listed`. -/
inductive Spells : Bool → List Char → List Symbol → Prop where
  | nil {listed : Bool} : Spells listed [] []
  | blank {listed : Bool} {c : Char} {cs : List Char} {ss : List Symbol}
      (hc : Text.isBlank c = true) (h : Spells listed cs ss) : Spells listed (c :: cs) ss
  | word {listed : Bool} {w : String} {cs : List Char} {ss : List Symbol}
      (hw : isIdentifier w = true) (hcs : Apart cs) (h : Spells listed cs ss) :
      Spells listed (w.toList ++ cs) (.of (Lexeme.kindOfWord w) w none :: ss)
  | number {listed : Bool} {digits : String} {n : Nat} {cs : List Char} {ss : List Symbol}
      (hd : Text.decimal? digits.toList = some n) (hcs : Apart cs) (h : Spells listed cs ss) :
      Spells listed (digits.toList ++ cs) (.number digits :: ss)
  | bracket {listed : Bool} {cs : List Char} {ss : List Symbol} (length : Option UInt64)
      (h : Spells listed cs ss) :
      Spells listed ((arraySuffix length).toList ++ cs) (.bracket length :: ss)
  | atSign {listed : Bool} {cs : List Char} {ss : List Symbol} (h : Spells listed cs ss) :
      Spells listed ('@' :: cs) (.atSign :: ss)
  | comma {cs : List Char} {ss : List Symbol} (h : Spells true cs ss) :
      Spells true (',' :: cs) (.comma :: ss)
  | group {listed : Bool} {inner cs : List Char} {is ss : List Symbol} (hi : Spells true inner is)
      (h : Spells listed cs ss) :
      Spells listed ('(' :: inner ++ ')' :: cs) (.openParen :: is ++ .closeParen :: ss)

namespace Spells

variable {listed : Bool} {cs ds : List Char} {xs ys : List Symbol}

theorem toListed (h : Spells listed cs xs) : Spells true cs xs := by
  induction h with
  | nil => exact .nil
  | blank hc _ ih => exact .blank hc ih
  | word hw hcs _ ih => exact .word hw hcs ih
  | number hd hcs _ ih => exact .number hd hcs ih
  | bracket length _ ih => exact .bracket length ih
  | atSign _ ih => exact .atSign ih
  | comma _ ih => exact .comma ih
  | group hi _ _ ih => exact .group hi ih

theorem of_append_nil (h : Spells listed (cs ++ []) xs) : Spells listed cs xs := by
  rwa [List.append_nil] at h

theorem append (hx : Spells listed cs xs) (hy : Spells listed ds ys) (hd : Apart ds) :
    Spells listed (cs ++ ds) (xs ++ ys) := by
  induction hx with
  | nil => exact hy
  | blank hc _ ih => exact .blank hc (ih hy)
  | word hw hcs _ ih =>
    rw [List.append_assoc, List.cons_append]
    exact .word hw (hcs.append hd) (ih hy)
  | number hn hcs _ ih =>
    rw [List.append_assoc, List.cons_append]
    exact .number hn (hcs.append hd) (ih hy)
  | bracket length _ ih =>
    rw [List.append_assoc, List.cons_append]
    exact .bracket length (ih hy)
  | atSign _ ih => exact .atSign (ih hy)
  | comma _ ih => exact .comma (ih hy)
  | group hi _ _ ih =>
    rw [List.append_assoc, List.cons_append, List.append_assoc, List.cons_append]
    exact .group hi (ih hy)

end Spells

namespace Elementary

theorem isSome_shape? (type : Elementary) : (shape? type.text).isSome = true := by
  have h := ofString_text type
  unfold ofString at h
  cases hs : shape? type.text with
  | none =>
    rw [hs] at h
    cases h
  | some shape => rfl

/-- A word with the shape of an elementary type is a stem, with digits after it for some stems. -/
theorem shape?_cases {word : String} (h : (shape? word).isSome = true) :
    word ∈ ["address", "bool", "string"] ∨
      ∃ stem ∈ ["bytes", "uint", "int"], ∃ width : List Char,
        word.toList = stem.toList ++ width ∧ ∀ c ∈ width, c.isDigit = true := by
  have hwidth {stem : String} (hw : (widthAfter? stem word.toList).isSome = true) :
      ∃ width : List Char, word.toList = stem.toList ++ width ∧ ∀ c ∈ width, c.isDigit = true := by
    obtain ⟨width, hw⟩ := Option.isSome_iff_exists.mp hw
    obtain ⟨hstem, hd⟩ := Option.filter_eq_some_iff.mp hw
    exact ⟨width, (List.isPrefixOf?_eq_some_iff_append_eq.mp hstem).symm,
      List.all_eq_true.mp hd⟩
  unfold shape? at h
  split at h
  · simp
  · simp
  · simp
  · right
    simp only [Option.isSome_or, Option.isSome_map, Bool.or_eq_true] at h
    rcases h with h | h | h
    · exact ⟨_, by simp, hwidth h⟩
    · exact ⟨_, by simp, hwidth h⟩
    · exact ⟨_, by simp, hwidth h⟩

theorem isIdentifier_of_shape? {word : String} (h : (shape? word).isSome = true) :
    isIdentifier word = true := by
  obtain hw | ⟨stem, hstem, width, hw, hd⟩ := shape?_cases h
  · have hall : ∀ w ∈ ["address", "bool", "string"], isIdentifier w = true := by decide
    exact hall word hw
  · have hchars : ∀ c ∈ width, isWordChar c = true := fun c hc => isWordChar_of_isDigit (hd c hc)
    have hall : ∀ stem ∈ ["bytes", "uint", "int"], isIdentifier stem = true := by decide
    have hs := hall stem hstem
    unfold isIdentifier at hs ⊢
    rw [hw]
    cases hc : stem.toList with
    | nil =>
      rw [hc] at hs
      cases hs
    | cons c rest =>
      rw [hc, Bool.and_eq_true] at hs
      rw [List.cons_append, Bool.and_eq_true, List.all_append, Bool.and_eq_true,
        List.all_eq_true (l := width)]
      exact ⟨hs.1, hs.2, hchars⟩

theorem isKeyword_of_shape? {word : String} (h : (shape? word).isSome = true) :
    isKeyword word = false := by
  have hno : ∀ group ∈ [Keyword.declarations, Keyword.visibility, Keyword.modifiers,
      Keyword.structural], ∀ w ∈ group, (shape? w).isSome = false := by
    decide +kernel
  rw [isKeyword, List.any_eq_false]
  intro group hg hw
  rw [List.contains_iff_mem] at hw
  rw [hno group hg word hw] at h
  cases h

theorem shape?_of_ofString {word : String} {type : Elementary} (h : ofString word = .ok type) :
    (shape? word).isSome = true := by
  unfold ofString at h
  split at h
  next hs => rw [hs]; rfl
  next => cases h

theorem kindOfWord_of_shape? {word : String} (h : (shape? word).isSome = true) :
    Lexeme.kindOfWord word = .type := by
  rw [Lexeme.kindOfWord, isKeyword_of_shape? h, if_neg (by simp), if_pos h]

theorem isIdentifier_text (type : Elementary) : isIdentifier type.text = true :=
  isIdentifier_of_shape? type.isSome_shape?

theorem kindOfWord_text (type : Elementary) : Lexeme.kindOfWord type.text = .type :=
  kindOfWord_of_shape? type.isSome_shape?

end Elementary

theorem isWordChar_of_isWordStart {c : Char} (h : isWordStart c = true) : isWordChar c = true := by
  simp only [isWordStart, Bool.or_eq_true] at h
  simp only [isWordChar, Char.isAlphanum, Bool.or_eq_true]
  rcases h with (h | h) | h
  · exact .inl (.inl (.inl h))
  · exact .inl (.inr h)
  · exact .inr h

theorem isDigit_of_isWordStart {c : Char} (h : isWordStart c = true) : c.isDigit = false := by
  apply Bool.eq_false_iff.mpr
  intro hd
  simp only [isWordStart, Bool.or_eq_true, beq_iff_eq, isAlpha_iff_toNat] at h
  have hcode : 48 ≤ c.toNat ∧ c.toNat ≤ 57 := Char.isDigit_iff_toNat.mp hd
  rcases h with (h | rfl) | rfl
  · omega
  · exact absurd hd (by decide)
  · exact absurd hd (by decide)

theorem word_chars {w : String} (h : isIdentifier w = true) :
    w.toList ≠ [] ∧ ∀ c ∈ w.toList, isWordChar c = true := by
  unfold isIdentifier at h
  split at h
  next => cases h
  next c rest he =>
    rw [Bool.and_eq_true, List.all_eq_true] at h
    rw [he]
    exact ⟨List.cons_ne_nil _ _,
      List.forall_mem_cons.mpr ⟨isWordChar_of_isWordStart h.1, h.2⟩⟩

theorem Text.word64?_repr (n : UInt64) : word64? n.toNat.repr.toList = some n := by
  rw [word64?, decimal?_repr, Option.bind_some, if_pos n.toNat_lt, UInt64.ofNat_toNat]

theorem Lexeme.symbol_word_toList (w : String) (offset : Nat) :
    (word w.toList offset).symbol = .of (kindOfWord w) w none := by
  rw [symbol_word, String.ofList_toList]

theorem Lexeme.symbol_number_toList (digits : String) (offset : Nat) :
    (number digits.toList offset).symbol = .number digits := by
  rw [symbol_number, String.ofList_toList]

namespace Lexer

variable {s s' : Lexer} {offset : Nat}

theorem run_cons {piece : Piece} {rest : List Piece} (h : s.addPiece piece offset = .ok s') :
    s.run offset (piece :: rest) = s'.run (offset + piece.length) rest := by
  rw [run, h]
  rfl

theorem run_append {ps : List Piece} (h : s.run offset ps = .ok s') :
    ∃ next, ∀ qs, s.run offset (ps ++ qs) = s'.run next qs := by
  induction ps generalizing s offset with
  | nil =>
    obtain rfl := Except.ok.inj h
    exact ⟨offset, fun _ => rfl⟩
  | cons p ps ih =>
    rw [run] at h
    cases hp : s.addPiece p offset with
    | error e =>
      rw [hp] at h
      cases h
    | ok s₁ =>
      rw [hp] at h
      obtain ⟨next, hnext⟩ := ih h
      refine ⟨next, ?_⟩
      intro qs
      rw [List.cons_append, run_cons hp]
      exact hnext qs

theorem addPiece_mark {c : Char} (hc : Text.isBlank c = false) :
    s.addPiece (.mark c) offset = s.punctuation c offset := by
  rw [addPiece, if_neg (by simp [hc])]

theorem addRun_digits {digits : List Char} (hne : digits ≠ [])
    (hd : ∀ c ∈ digits, c.isDigit = true) :
    s.addRun digits offset = s.add (.number digits offset) := by
  rw [addRun, List.takeWhile_eq_self_iff.mpr hd, List.dropWhile_eq_nil_iff.mpr hd]
  simp [hne]

theorem addRun_word {w : String} (hw : isIdentifier w = true) :
    s.addRun w.toList offset = s.add (.word w.toList offset) := by
  unfold isIdentifier at hw
  split at hw
  next => cases hw
  next c rest he =>
    rw [Bool.and_eq_true] at hw
    have hc := isDigit_of_isWordStart hw.1
    rw [he, addRun, List.takeWhile_cons_of_neg (by simp [hc]),
      List.dropWhile_cons_of_neg (by simp [hc])]
    rfl

theorem add_of_no_bracket (hb : s.bracket = none) (l : Lexeme) :
    s.add l = { s with items := .single l :: s.items } := by
  rw [add, hb]

theorem outsideBracket_of_no_bracket (hb : s.bracket = none) (c : Char) :
    s.outsideBracket c offset = .ok () := by
  rw [outsideBracket, hb]

/-- The pieces that follow are read as items for these symbols, and leave the rest as it is. -/
def Yields (s : Lexer) (offset : Nat) (pieces : List Piece) (ss : List Symbol) : Prop :=
  ∃ items, Item.symbolsOf items = ss ∧
    s.run offset pieces = .ok { s with items := items.reverse ++ s.items }

theorem Yields.append {pieces rest : List Piece} {item : Item} {ss : List Symbol}
    (h : s.run offset pieces = .ok { s with items := item :: s.items })
    (hr : ∀ items offset, Yields { s with items } offset rest ss) :
    Yields s offset (pieces ++ rest) (item.symbols ++ ss) := by
  obtain ⟨next, hnext⟩ := run_append h
  obtain ⟨items, hs, hrun⟩ := hr (item :: s.items) next
  refine ⟨item :: items, by rw [Item.symbolsOf_cons, hs], ?_⟩
  rw [hnext, hrun, List.reverse_cons, List.append_assoc, List.singleton_append]

theorem Yields.single {pieces rest : List Piece} {l : Lexeme} {ss : List Symbol}
    (h : s.run offset pieces = .ok { s with items := .single l :: s.items })
    (hr : ∀ items offset, Yields { s with items } offset rest ss) :
    Yields s offset (pieces ++ rest) (l.symbol :: ss) := Yields.append h hr

theorem run_mark {c : Char} (hc : Text.isBlank c = false) (h : s.punctuation c offset = .ok s') :
    s.run offset [.mark c] = .ok s' := by
  rw [run_cons (by rw [addPiece_mark hc, h])]
  rfl

theorem arraySuffix_number {l : Lexeme} {n : UInt64} (hk : l.kind = .number)
    (hv : l.value = some n) (openAt closeAt : Nat) :
    arraySuffix ⟨openAt, [l]⟩ closeAt = .ok ⟨.bracket, "[" ++ l.text ++ "]", openAt, some n⟩ := by
  simp [arraySuffix, hk, hv]

theorem run_bracket (hb : s.bracket = none) (length : Option UInt64) (cs : List Char) :
    ∃ l pieces, l.symbol = .bracket length ∧
      ofChars ((ContractAbi.arraySuffix length).toList ++ cs) = pieces ++ ofChars cs ∧
      s.run offset pieces = .ok { s with items := .single l :: s.items } := by
  obtain ⟨items, groups, bracket⟩ := s
  obtain rfl : bracket = none := hb
  cases length with
  | none =>
    refine ⟨⟨.bracket, "[]", offset, none⟩, [.mark '[', .mark ']'], rfl, ?_, rfl⟩
    exact ofChars_between (by decide) (by decide) [] cs
  | some n =>
    obtain ⟨hne, hd, -⟩ := Text.decimal?_eq_some.mp (Text.decimal?_repr n.toNat)
    have hchars : (ContractAbi.arraySuffix (some n)).toList ++ cs =
        '[' :: n.toNat.repr.toList ++ ']' :: cs := by
      simp [ContractAbi.arraySuffix]
    refine ⟨⟨.bracket, "[" ++ n.toNat.repr ++ "]", offset, some n⟩,
      [.mark '[', .run n.toNat.repr.toList, .mark ']'], rfl, ?_, ?_⟩
    · rw [hchars, ofChars_between (by decide) (by decide),
        ofChars_word hne fun c hc => isWordChar_of_isDigit (hd c hc)]
      rfl
    · -- until the brackets are closed, the digits between them are no item
      have hopen : (⟨items, groups, none⟩ : Lexer).addPiece (.mark '[') offset =
          .ok ⟨items, groups, some ⟨offset, []⟩⟩ := rfl
      have hdigits (at' : Nat) : (⟨items, groups, some ⟨offset, []⟩⟩ : Lexer).addPiece
          (.run n.toNat.repr.toList) at' =
            .ok ⟨items, groups, some ⟨offset, [.number n.toNat.repr.toList at']⟩⟩ := by
        rw [addPiece, addRun_digits hne hd]
        rfl
      rw [run_cons hopen, run_cons (hdigits _)]
      apply run_mark (by decide)
      rw [punctuation, closeBracket]
      dsimp only
      rw [arraySuffix_number rfl (Text.word64?_repr n)]
      dsimp only [Lexeme.number]
      rw [String.ofList_toList]
      rfl

theorem run_group (offset : Nat) (hb : s.bracket = none) {inner : List Piece} {is : List Symbol}
    (hi : ∀ s' : Lexer, ∀ offset, s'.bracket = none → s'.groups ≠ [] → s'.Yields offset inner is) :
    ∃ item, item.symbols = .openParen :: is ++ [.closeParen] ∧
      s.run offset (.mark '(' :: inner ++ [.mark ')']) =
        .ok { s with items := item :: s.items } := by
  obtain ⟨items, groups, bracket⟩ := s
  obtain rfl : bracket = none := hb
  obtain ⟨body, hbody, hrun⟩ := hi ⟨[], ⟨offset, items⟩ :: groups, none⟩ (offset + 1) rfl
    (List.cons_ne_nil _ _)
  have hopen : (⟨items, groups, none⟩ : Lexer).addPiece (.mark '(') offset =
      .ok ⟨[], ⟨offset, items⟩ :: groups, none⟩ := rfl
  obtain ⟨next, hnext⟩ := run_append hrun
  refine ⟨.group offset body next, by rw [Item.symbols, hbody], ?_⟩
  rw [List.cons_append, run_cons hopen]
  refine (hnext _).trans ?_
  apply run_mark (by decide)
  rw [List.append_nil, punctuation, outsideBracket_of_no_bracket rfl]
  change closeGroup ⟨body.reverse, ⟨offset, items⟩ :: groups, none⟩ _ = _
  rw [closeGroup, List.reverse_reverse]

/-- What is spelled is read, after whatever has been read before it. -/
theorem yields_of_spells {listed : Bool} {cs : List Char} {ss : List Symbol}
    (h : Spells listed cs ss) {s : Lexer} {offset : Nat} (hb : s.bracket = none)
    (hg : listed = true → s.groups ≠ []) : s.Yields offset (ofChars cs) ss := by
  -- the lexer may stand anywhere but inside brackets; that a group is open is what commas ask for
  induction h generalizing s offset with
  | nil => exact ⟨[], rfl, rfl⟩
  | @blank _ c cs _ hc _ ih =>
    have hskip : s.addPiece (.mark c) offset = .ok s := by rw [addPiece, if_pos hc]
    obtain ⟨items, hs, hrun⟩ := ih hb hg
    rw [ofChars_cons_mark (isWordChar_of_isBlank hc)]
    exact ⟨items, hs, by rw [run_cons hskip, hrun]⟩
  | @word _ w cs ss hw hcs _ ih =>
    rw [ofChars_append _ hcs, ofChars_word (word_chars hw).1 (word_chars hw).2,
      ← Lexeme.symbol_word_toList w offset]
    apply Yields.single _ fun items offset => ih hb hg
    rw [run_cons (by rw [addPiece, addRun_word hw, add_of_no_bracket hb])]
    rfl
  | @number _ digits n cs ss hd hcs _ ih =>
    obtain ⟨hne, hdigits, -⟩ := Text.decimal?_eq_some.mp hd
    rw [ofChars_append _ hcs, ofChars_word hne fun c hc => isWordChar_of_isDigit (hdigits c hc),
      ← Lexeme.symbol_number_toList digits offset]
    apply Yields.single _ fun items offset => ih hb hg
    rw [run_cons (by rw [addPiece, addRun_digits hne hdigits, add_of_no_bracket hb])]
    rfl
  | bracket length _ ih =>
    obtain ⟨l, pieces, hl, hpieces, hrun⟩ := run_bracket hb length _
    rw [hpieces, ← hl]
    exact Yields.single hrun fun items offset => ih hb hg
  | atSign _ ih =>
    rw [ofChars_cons_mark (by decide)]
    have hrun : s.run offset [.mark '@'] =
        .ok { s with items := .single ⟨.atSign, "@", offset, none⟩ :: s.items } := by
      apply run_mark (by decide)
      rw [punctuation, add_of_no_bracket hb]
    exact Yields.single hrun fun items offset => ih hb hg
  | comma _ ih =>
    rw [ofChars_cons_mark (by decide)]
    have hrun : s.run offset [.mark ','] = .ok { s with items := .comma offset :: s.items } := by
      apply run_mark (by decide)
      rw [punctuation, outsideBracket_of_no_bracket hb]
      change s.addComma offset = _
      obtain ⟨g, groups, hgroups⟩ := List.exists_cons_of_ne_nil (hg rfl)
      rw [addComma, hgroups]
    exact Yields.append hrun fun items offset => ih hb hg
  | @group _ inner cs is ss hi _ ihi ih =>
    obtain ⟨item, hitem, hrun⟩ := run_group offset hb
      fun s' offset hb' hg' => ihi hb' fun _ => hg'
    have hsymbols : Symbol.openParen :: is ++ .closeParen :: ss = item.symbols ++ ss := by
      rw [hitem, List.append_assoc, List.singleton_append]
    rw [ofChars_between (by decide) (by decide), hsymbols]
    exact Yields.append hrun fun items offset => ih hb hg

end Lexer

theorem Token.scan_of_spells {text : String} {ss : List Symbol} (h : Spells false text.toList ss) :
    ∃ tokens, scan text = .ok tokens ∧ tokens.map symbol = ss := by
  have hy : Lexer.initial.Yields 0 (ofChars text.toList) ss :=
    Lexer.yields_of_spells h rfl (by simp)
  obtain ⟨items, hs, hrun⟩ := hy
  refine ⟨Item.tokens items, ?_, by rw [Item.tokens, Item.map_symbol_layout, hs]⟩
  rw [scan, Item.ofChars, hrun]
  change ((Lexer.mk (items.reverse ++ []) [] none).finish).map Item.tokens = _
  rw [Lexer.finish, List.append_nil, List.reverse_reverse]
  rfl

theorem Lexer.run_brace {s : Lexer} (offset : Nat) {cs : List Char}
    (h : (Text.trimStart cs).head? = some '\x7b') : ∃ e, s.run offset (ofChars cs) = .error e := by
  induction cs generalizing offset with
  | nil => cases h
  | cons c cs ih =>
    by_cases hc : Text.isBlank c = true
    · rw [Text.trimStart, List.dropWhile_cons_of_pos hc] at h
      have hskip : s.addPiece (.mark c) offset = .ok s := by rw [addPiece, if_pos hc]
      rw [ofChars_cons_mark (isWordChar_of_isBlank hc), run_cons hskip]
      exact ih _ h
    · rw [Text.trimStart, List.dropWhile_cons_of_neg hc, List.head?_cons, Option.some.injEq] at h
      subst h
      rw [ofChars_cons_mark (by decide)]
      exact ⟨_, rfl⟩

/-- No text that begins with a brace has tokens. -/
theorem Token.head?_of_scan {text : String} {tokens : List Token} (h : scan text = .ok tokens) :
    (Text.trimStart text.toList).head? ≠ some '\x7b' := by
  intro hb
  obtain ⟨e, he⟩ := Lexer.run_brace 0 hb
  rw [scan, Item.ofChars, he] at h
  cases h

end ContractAbi
