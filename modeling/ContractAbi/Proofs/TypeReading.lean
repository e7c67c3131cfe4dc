import ContractAbi.Proofs.Canonical
import ContractAbi.Proofs.Suffixes

/-!
What types may be in JSON, compared with signature text. All that has neither a label nor blanks
outside of its groups is read alike; after a label JSON admits brackets, which signatures do not.
-/

namespace ContractAbi

open Piece
open Item (CommaFree symbolsOf)

/-- Whether a symbol is a modifier or a name, where a parameter ends with it. -/
def Symbol.isLabel : Symbol → Bool
  | keyword _ | identifier _ => true
  | _ => false

namespace Grammar

theorem Group.getLast? {indexable : Bool} {ts : List Symbol} {ps : List Param}
    (h : Group indexable ts ps) : ts.getLast? = some .closeParen := by
  obtain ⟨inner, rfl, -⟩ := h.closed_inside
  rw [List.getLast?_concat]

/-- A type without array suffixes does not end with one. -/
theorem Head.not_bracket {hs : List Symbol} {type : Ty} (h : Head hs type) :
    ∀ length, hs.getLast? ≠ some (.bracket length) := by
  intro length hl
  cases h with
  | elementary => cases hl
  | tuple h =>
    rw [h.getLast?] at hl
    cases hl
  | wordedTuple h =>
    rw [List.getLast?_cons, h.getLast?] at hl
    cases hl

theorem Head.not_label {hs : List Symbol} {type : Ty} (h : Head hs type) :
    ∃ s, hs.getLast? = some s ∧ s.isLabel = false := by
  cases h with
  | elementary => exact ⟨_, rfl, rfl⟩
  | tuple h => exact ⟨_, h.getLast?, rfl⟩
  | wordedTuple h => exact ⟨.closeParen, by rw [List.getLast?_cons, h.getLast?]; rfl, rfl⟩

/-- A parameter that ends with neither a modifier nor a name is a type. -/
theorem Parameter.unlabelled {ts : List Symbol} {q : Param} (h : Parameter false ts q) {s : Symbol}
    (hs : ts.getLast? = some s) (hl : s.isLabel = false) :
    ∃ hs type, ∃ lengths : List (Option UInt64), Head hs type ∧ ts = hs ++ lengths.map .bracket ∧
      q = ⟨none, none, lengths.foldl Ty.array type⟩ := by
  cases h with
  | mk lengths head modifiers named =>
    cases modifiers with
    | @mk words =>
      cases named with
      | named name =>
        rw [List.getLast?_concat] at hs
        obtain rfl := Option.some.inj hs
        cases hl
      | unnamed =>
        rw [List.append_nil] at hs ⊢
        obtain rfl | ⟨words, w, rfl⟩ := List.eq_nil_or_concat words
        · exact ⟨_, _, lengths, head, by rw [List.map_nil, List.append_nil], rfl⟩
        · rw [List.concat_eq_append, List.map_append, ← List.append_assoc, List.map_singleton,
            List.getLast?_concat] at hs
          obtain rfl := Option.some.inj hs
          cases hl

end Grammar

namespace Item

/-- The characters of a group are its parenthesis first. -/
theorem exists_chars_group {items : List Item} {ss : List Symbol} (hp : Proper items)
    (h : symbolsOf items = .openParen :: ss) :
    ∃ cs, (lexemesOf items).flatMap (fun l => l.text.toList) = '(' :: cs := by
  obtain ⟨openAt, body, closeAt, rest, rfl⟩ := eq_group_cons hp h
  simp [lexemesOf, lexemes]

end Item

theorem Lexeme.text_of_symbol {l : Lexeme} {w : String}
    (h : l.symbol = .type w ∨ l.symbol = .keyword w) : l.text = w := by
  obtain ⟨kind, text, offset, value⟩ := l
  cases kind <;> simp_all [symbol, Symbol.of]

namespace Ty

open Grammar

/-- A text whose tokens are those of a type without array suffixes stands for that type. -/
theorem headOf_of_head {base : List Char} {items : List Item} {type : Ty}
    (hitems : Item.ofChars base = .ok items) (hb : Text.BlanksGrouped base)
    (h : Head (symbolsOf items) type) : headOf (String.ofList base) none = .ok type := by
  obtain ⟨hs, -⟩ := Item.ofChars_eq_ok.mp hitems
  have hp := (Item.proper_ofChars hitems).2
  have hfill := (hs.fill fun w hw => word_of_mem_ofChars hw).texts
  rw [flatMap_chars_ofChars] at hfill
  have hread : Param.ofSignature false (String.ofList base) = .ok ⟨none, none, type⟩ := by
    refine Param.ofSignature_eq_ok.mpr
      ⟨Item.tokens items, map_eq_ok_iff.mpr ⟨items, by rwa [String.toList_ofList], rfl⟩, ?_⟩
    have hone := Parameter.of_head h []
    rw [List.map_nil, List.append_nil] at hone
    rwa [Item.tokens, Item.map_symbol_layout]
  generalize hss : symbolsOf items = ss at h
  cases h with
  | @elementary word e he =>
    have hshape := Elementary.shape?_of_ofString he
    obtain ⟨l, rest, rfl, hl, hrest⟩ := Item.eq_single_cons hss rfl
    obtain rfl : rest = [] := Item.eq_nil_of_widths (by rw [← Item.length_symbolsOf, hrest]; rfl)
    have htext : base = word.toList := by
      have hparen : '(' ∉ word.toList := fun hm =>
        absurd ((word_chars (Elementary.isIdentifier_of_shape? hshape)).2 _ hm) (by decide)
      apply hb.eq_of_filter hparen
      rw [← hfill, Item.lexemesOf_singleton, Item.lexemes, List.flatMap_singleton,
        Lexeme.text_of_symbol (.inl hl)]
    rw [htext, String.ofList_toList,
      headOf_of_not_tupleText (Elementary.isTupleText_of_shape? hshape),
      Param.elementary_eq_ok.mpr ⟨e, he, rfl⟩]
    rfl
  | @tuple _ ps hg =>
    obtain ⟨inner, rfl, -⟩ := hg.closed_inside
    obtain ⟨cs, hcs⟩ := Item.exists_chars_group hp hss
    rw [hfill, ← List.nil_append ('(' :: cs)] at hcs
    obtain ⟨rest, hrest⟩ := hb.split_paren List.not_mem_nil hcs
    rw [headOf_paren (.inl (by rw [String.toList_ofList, hrest]; rfl)), hread]
    rfl
  | @wordedTuple ts ps hg =>
    obtain ⟨inner, rfl, -⟩ := hg.closed_inside
    obtain ⟨l, more, rfl, hl, hmore⟩ := Item.eq_single_cons hss rfl
    obtain ⟨cs, hcs⟩ := Item.exists_chars_group hp.2 hmore
    rw [Item.lexemesOf, Item.lexemes, List.singleton_append, List.flatMap_cons, hcs,
      Lexeme.text_of_symbol (.inr hl)] at hfill
    obtain ⟨rest, hrest⟩ := hb.split_paren (by decide) hfill.symm
    rw [headOf_paren (.inr (by rw [String.toList_ofList, hrest])), hread]
    rfl

end Ty

namespace Param

variable {text : String} {tokens : List Token} {p q : Param}

theorem ofObject_type_eq_ok :
    ofObject false ⟨none, text, none, none⟩ = .ok p ↔
      ∃ base lengths head, Ty.Suffixes base (Text.trimStart text.toList) lengths ∧
        Ty.headOf (String.ofList base) none = .ok head ∧
          p = ⟨none, none, lengths.foldl Ty.array head⟩ := by
  have hassemble : ofObject false ⟨none, text, none, none⟩ =
      (Ty.ofText text none).map fun type => ⟨none, none, type⟩ := by
    rw [ofObject, ofComponents, assemble]
    cases Ty.ofText text none <;> rfl
  rw [hassemble, map_eq_ok_iff]
  constructor
  · rintro ⟨type, htype, rfl⟩
    obtain ⟨base, lengths, head, hs, hhead, rfl⟩ := Ty.ofText_eq_ok.mp htype
    exact ⟨base, lengths, head, hs, hhead, rfl⟩
  · rintro ⟨base, lengths, head, hs, hhead, rfl⟩
    exact ⟨_, Ty.ofText_eq_ok.mpr ⟨base, lengths, head, hs, hhead, rfl⟩, rfl⟩

/-- A signature with blanks inside of groups only, and no label at its end, is read as a type in
JSON like anywhere else. -/
theorem ofObject_of_ofSignature (hscan : Token.scan text = .ok tokens)
    (hb : Text.BlanksGrouped text.toList)
    (hlast : ∃ t, tokens.getLast? = some t ∧ t.kind ∈ [.type, .closeParen, .bracket])
    (h : ofSignature false text = .ok q) : ofObject false ⟨none, text, none, none⟩ = .ok q := by
  obtain ⟨tokens', hscan', hread⟩ := ofSignature_eq_ok.mp h
  obtain rfl := Except.ok.inj (hscan.symm.trans hscan')
  obtain ⟨t, ht, hkind⟩ := hlast
  have hlabel : t.symbol.isLabel = false := by
    unfold Token.symbol Symbol.of
    simp only [List.mem_cons, List.not_mem_nil, or_false] at hkind
    rcases hkind with hk | hk | hk <;> rw [hk] <;> rfl
  have hlast : (tokens.map Token.symbol).getLast? = some t.symbol := by
    rw [List.getLast?_map, ht]
    rfl
  obtain ⟨hs, head, lengths, hhead, hsymbols, rfl⟩ := hread.unlabelled hlast hlabel
  -- the same brackets are the last tokens and the suffixes that are taken off from the back
  obtain ⟨items, hitems, rfl⟩ := map_eq_ok_iff.mp hscan
  obtain ⟨hstretch, hc⟩ := Item.ofChars_eq_ok.mp hitems
  obtain ⟨base, lengths', inner, ls, hsplit, hbase, hinner, rfl, hls, hnot⟩ :=
    hstretch.exists_suffixes hb
  rw [Item.tokens, Item.map_symbol_layout, Item.symbolsOf_append, Item.symbolsOf_map_single, hls,
    Symbol.append_brackets_inj hnot hhead.not_bracket] at hsymbols
  obtain ⟨rfl, rfl⟩ := hsymbols
  have hblank : Text.trimStart text.toList = text.toList := by
    cases hcs : text.toList with
    | nil => rfl
    | cons c cs =>
      rw [hcs] at hb
      rw [Text.trimStart, List.dropWhile_cons_of_neg (by simp [hb.head])]
  have hinner' : Item.ofChars base = .ok inner :=
    Item.ofChars_eq_ok.mpr ⟨hinner, (Item.commaFree_append.mp hc).1⟩
  exact ofObject_type_eq_ok.mpr
    ⟨base, lengths', head, hblank.symm ▸ hsplit, Ty.headOf_of_head hinner' hbase hhead, rfl⟩

theorem ofObject_of_ofSignature_nested :
    ofObject false ⟨none, "tuple(uint256[ 02 ] a, bool)[007][]", none, none⟩ =
      .ok ⟨none, none, .array (.array (.tuple
        [⟨some ⟨"a", by decide⟩, none, .array (.elementary (.uint 31)) (some 2)⟩,
          ⟨none, none, .elementary .bool⟩]) (some 7)) none⟩ := by
  have hscan : Token.scan "tuple(uint256[ 02 ] a, bool)[007][]" =
      .ok ((Token.scan "tuple(uint256[ 02 ] a, bool)[007][]").toOption.getD []) :=
    eq_ok_of_toOption (by decide +kernel)
  exact ofObject_of_ofSignature hscan (by decide +kernel) (by decide +kernel)
    (eq_ok_of_toOption (by decide +kernel))

theorem exists_ofSignature_of_headOf {base : String} {head : Ty}
    (h : Ty.headOf base none = .ok head) :
    ∃ q, ofSignature false base = .ok q ∧ q.type = head := by
  by_cases ht : Ty.isTupleText base = true
  · by_cases hne : base = "tuple"
    · subst hne
      cases h
    · rw [Ty.headOf_of_tupleText ht hne] at h
      exact map_eq_ok_iff.mp h
  · rw [Ty.headOf_of_not_tupleText (Bool.eq_false_iff.mpr ht)] at h
    obtain ⟨q, hq, rfl⟩ := map_eq_ok_iff.mp h
    obtain ⟨e, he, rfl⟩ := elementary_eq_ok.mp hq
    have hshape := Elementary.shape?_of_ofString he
    have hspell : Spells false base.toList [.type base] := by
      have hw := Spells.word (Elementary.isIdentifier_of_shape? hshape) apart_nil
        (@Spells.nil false)
      rw [Elementary.kindOfWord_of_shape? hshape] at hw
      exact hw.of_append_nil
    obtain ⟨tokens, hscan, hsymbols⟩ := Token.scan_of_spells hspell
    refine ⟨_, ofSignature_eq_ok.mpr ⟨tokens, hscan, ?_⟩, rfl⟩
    rw [hsymbols]
    exact Grammar.Parameter.of_head (.elementary he) []

end Param

/-- A text has its tokens in JSON as well, and the suffixes that are taken off are brackets after
those of what is left. -/
theorem Token.scan_of_suffixes {base : List Char} {text : String} {tokens : List Token}
    {lengths : List (Option UInt64)}
    (h : Ty.Suffixes base (Text.trimStart text.toList) lengths)
    (hscan : scan (String.ofList base) = .ok tokens) :
    ∃ all, scan text = .ok all ∧ all.map symbol = tokens.map symbol ++ lengths.map .bracket := by
  have hblank : ∀ c ∈ text.toList.takeWhile Text.isBlank, Text.isBlank c = true :=
    fun c hc => List.mem_takeWhile_imp hc
  have htext : text.toList =
      text.toList.takeWhile Text.isBlank ++ Text.trimStart text.toList :=
    List.takeWhile_append_dropWhile.symm
  obtain ⟨items, hbase, hc, hsymbols⟩ :=
    stretch_of_scan hscan (0 + extent (ofChars (text.toList.takeWhile Text.isBlank)))
  rw [String.toList_ofList] at hbase
  obtain ⟨ls, hls, hs⟩ := h.stretch hbase
  have hall := (Stretch.of_blank hblank 0).append hs
  rw [← ofChars_append_blank hblank, ← htext, List.nil_append] at hall
  have hitems := Item.ofChars_eq_ok.mpr
    ⟨hall, Item.commaFree_append.mpr ⟨hc, Stretch.commaFree_map_single ls⟩⟩
  refine ⟨_, map_eq_ok_iff.mpr ⟨_, hitems, rfl⟩, ?_⟩
  rw [Item.tokens, Item.map_symbol_layout, Item.symbolsOf_append, Item.symbolsOf_map_single, hls,
    hsymbols]

namespace Grammar

variable {ts : List Symbol} {q : Param} {outer : List (Option UInt64)}

/-- Brackets after a type make arrays of it. -/
theorem Parameter.append_brackets (h : Parameter false ts q) {s : Symbol}
    (hs : ts.getLast? = some s) (hl : s.isLabel = false) (outer : List (Option UInt64)) :
    Parameter false (ts ++ outer.map .bracket) ⟨none, none, outer.foldl Ty.array q.type⟩ := by
  obtain ⟨hs, type, lengths, hhead, rfl, rfl⟩ := h.unlabelled hs hl
  have hp := Parameter.of_head hhead (lengths ++ outer)
  rwa [List.map_append, ← List.append_assoc, List.foldl_append] at hp

/-- No parameter has brackets after a modifier or a name. -/
theorem Parameter.not_label_of_append_brackets (h : Parameter false ts q) (hne : outer ≠ [])
    {p : Param} (hp : Parameter false (ts ++ outer.map .bracket) p) :
    ∃ s, ts.getLast? = some s ∧ s.isLabel = false := by
  obtain ⟨s, hs⟩ := Option.ne_none_iff_exists'.mp (mt List.getLast?_eq_none_iff.mp h.ne_nil)
  refine ⟨s, hs, ?_⟩
  by_contra hl
  rw [Bool.not_eq_false] at hl
  obtain ⟨outer, last, rfl⟩ := (List.eq_nil_or_concat outer).resolve_left hne
  obtain ⟨hs', type, lengths, hhead, hsymbols, -⟩ :=
    hp.unlabelled (s := .bracket last) (by simp) rfl
  have hbracket : ∀ length, ts.getLast? ≠ some (.bracket length) := by
    intro length hb
    obtain rfl := Option.some.inj (hs.symm.trans hb)
    cases hl
  obtain ⟨rfl, -⟩ := (Symbol.append_brackets_inj hbracket hhead.not_bracket).mp hsymbols
  obtain ⟨s', hs', hl'⟩ := hhead.not_label
  obtain rfl := Option.some.inj (hs.symm.trans hs')
  rw [hl] at hl'
  cases hl'

end Grammar

namespace Param

variable {text : String} {p : Param}

/-- A type in JSON is a parameter of the grammar with brackets after it. Signature text is read as
the same type where these belong to it, and is no signature where a modifier or a name stands
before them. -/
theorem ofObject_type_bracketed (h : ofObject false ⟨none, text, none, none⟩ = .ok p) :
    ∃ tokens ts outer q, Token.scan text = .ok tokens ∧
      tokens.map Token.symbol = ts ++ outer.map .bracket ∧ Grammar.Parameter false ts q ∧
      p = ⟨none, none, outer.foldl Ty.array q.type⟩ ∧
      ((∃ r, ofSignature false text = .ok r) ↔
        outer = [] ∨ ∃ s, ts.getLast? = some s ∧ s.isLabel = false) ∧
      ∀ r, ofSignature false text = .ok r → { r with name := none } = p := by
  obtain ⟨base, outer, head, hsplit, hhead, rfl⟩ := ofObject_type_eq_ok.mp h
  obtain ⟨q, hq, rfl⟩ := exists_ofSignature_of_headOf hhead
  obtain ⟨tokens, hscan, hparameter⟩ := ofSignature_eq_ok.mp hq
  obtain ⟨all, hall, hsymbols⟩ := Token.scan_of_suffixes hsplit hscan
  have hread {r : Param} : ofSignature false text = .ok r ↔
      Grammar.Parameter false (tokens.map Token.symbol ++ outer.map .bracket) r := by
    rw [ofSignature_eq_ok, ← hsymbols]
    simp [hall]
  have hflag : q.indexed = none :=
    Option.not_isSome_iff_eq_none.mp (by simp [hparameter.isSome_indexed])
  -- what the grammar reads with these brackets, where it reads anything
  have hvalue (hl : outer = [] ∨
      ∃ s, (tokens.map Token.symbol).getLast? = some s ∧ s.isLabel = false) :
      ∃ r, ofSignature false text = .ok r ∧
        { r with name := none } = ⟨none, none, outer.foldl Ty.array q.type⟩ := by
    obtain rfl | ⟨s, hs, hl⟩ := hl
    · refine ⟨q, hread.mpr ?_, by rw [hflag]; rfl⟩
      rwa [List.map_nil, List.append_nil]
    · exact ⟨_, hread.mpr (hparameter.append_brackets hs hl outer), rfl⟩
  have hlabel {r : Param} (hr : ofSignature false text = .ok r) : outer = [] ∨
      ∃ s, (tokens.map Token.symbol).getLast? = some s ∧ s.isLabel = false := by
    by_cases hne : outer = []
    · exact .inl hne
    · exact .inr (hparameter.not_label_of_append_brackets hne (hread.mp hr))
  refine ⟨all, _, outer, q, hall, hsymbols, hparameter, rfl, ?_, ?_⟩
  · constructor
    · rintro ⟨r, hr⟩
      exact hlabel hr
    · intro hl
      obtain ⟨r, hr, -⟩ := hvalue hl
      exact ⟨r, hr⟩
  · intro r hr
    obtain ⟨r', hr', hvalue⟩ := hvalue (hlabel hr)
    obtain rfl := Except.ok.inj (hr.symm.trans hr')
    exact hvalue

theorem ofObject_type_bracketed_modifier :
    ∃ tokens ts outer q, Token.scan "(bool) memory[2]" = .ok tokens ∧
      tokens.map Token.symbol = ts ++ outer.map .bracket ∧ Grammar.Parameter false ts q ∧
      (⟨none, none, .array (.tuple [⟨none, none, .elementary .bool⟩]) (some 2)⟩ : Param) =
        ⟨none, none, outer.foldl Ty.array q.type⟩ ∧
      ((∃ r, ofSignature false "(bool) memory[2]" = .ok r) ↔
        outer = [] ∨ ∃ s, ts.getLast? = some s ∧ s.isLabel = false) ∧
      ∀ r, ofSignature false "(bool) memory[2]" = .ok r → { r with name := none } =
        (⟨none, none, .array (.tuple [⟨none, none, .elementary .bool⟩]) (some 2)⟩ : Param) :=
  ofObject_type_bracketed (eq_ok_of_toOption (by decide +kernel))

/-- Signature text is not all that a type in JSON may be. -/
theorem not_ofSignature_of_ofObject_type :
    ¬ ∀ text p, ofObject false ⟨none, text, none, none⟩ = .ok p →
      ∃ tokens, Token.scan text = .ok tokens ∧
        ∃ q, ofSignature false text = .ok q ∧ { q with name := none } = p := by
  intro h
  have hobject : ofObject false ⟨none, "(bool) memory[2]", none, none⟩ =
      .ok ⟨none, none, .array (.tuple [⟨none, none, .elementary .bool⟩]) (some 2)⟩ :=
    eq_ok_of_toOption (by decide +kernel)
  obtain ⟨-, -, q, hq, -⟩ := h _ _ hobject
  have hnone : (ofSignature false "(bool) memory[2]").toOption = none := by decide +kernel
  rw [hq] at hnone
  cases hnone

end Param

end ContractAbi
