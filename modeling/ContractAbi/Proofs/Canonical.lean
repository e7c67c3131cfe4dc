import ContractAbi.Proofs.Document
import ContractAbi.Proofs.Nesting
import ContractAbi.Proofs.Printing

/-!
What a type's canonical text says. It is written for a type without names and flags, and that type
is what every reader makes of it, so the text tells such types apart; a sighash does the same.
-/

namespace ContractAbi

open Piece

mutual

/-- A type in which no parameter has a name or a flag. -/
def Ty.erase : Ty → Ty
  | .elementary type => .elementary type
  | .tuple components => .tuple (Param.eraseAll components)
  | .array element length => .array element.erase length

def Param.eraseAll : List Param → List Param
  | [] => []
  | ⟨_, _, type⟩ :: rest => ⟨none, none, type.erase⟩ :: Param.eraseAll rest

end

def Param.erase (p : Param) : Param := ⟨none, none, p.type.erase⟩

theorem Param.eraseAll_eq (ps : List Param) : eraseAll ps = ps.map erase := by
  induction ps with
  | nil => rfl
  | cons p ps ih =>
    cases p
    rw [eraseAll, ih]
    rfl

mutual

/-- The text of a type in which this stands before the parenthesis of every tuple. -/
def Ty.canonical (word : String) : Ty → String
  | .elementary type => type.text
  | .tuple components =>
    word ++ "(" ++ ",".intercalate (Param.canonicals word components) ++ ")"
  | .array element length => element.canonical word ++ arraySuffix length

def Param.canonicals (word : String) : List Param → List String
  | [] => []
  | ⟨_, _, type⟩ :: rest => type.canonical word :: Param.canonicals word rest

end

theorem Param.canonicals_eq (word : String) (ps : List Param) :
    canonicals word ps = ps.map fun p => p.type.canonical word := by
  induction ps with
  | nil => rfl
  | cons p ps ih =>
    cases p
    rw [canonicals, ih]
    rfl

mutual

theorem Ty.text_eq : (type : Ty) → type.text = type.canonical "tuple"
  | .elementary _ => rfl
  | .tuple components => by
    rw [Ty.text, Ty.canonical, Param.typeTexts_eq components]
    rfl
  | .array element length => by rw [Ty.text, Ty.canonical, element.text_eq]

theorem Param.typeTexts_eq : (ps : List Param) → Param.typeTexts ps = Param.canonicals "tuple" ps
  | [] => rfl
  | ⟨_, _, type⟩ :: rest => by
    rw [Param.typeTexts, Param.canonicals, type.text_eq, Param.typeTexts_eq rest]

end

mutual

theorem Ty.signature_sighash : (type : Ty) → type.signature .sighash = type.canonical ""
  | .elementary _ => rfl
  | .tuple components => by
    rw [Ty.signature, Ty.canonical, Param.signatures_sighash components]
    rfl
  | .array element length => by rw [Ty.signature, Ty.canonical, element.signature_sighash]

theorem Param.signatures_sighash :
    (ps : List Param) → Param.signatures .sighash ps = Param.canonicals "" ps
  | [] => rfl
  | ⟨_, _, type⟩ :: rest => by
    rw [Param.signatures, Param.canonicals, type.signature_sighash, Param.signatures_sighash rest]
    exact congrArg (· :: _) String.append_empty

end

mutual

/-- Names and flags leave no trace. -/
theorem Ty.canonical_erase (word : String) :
    (type : Ty) → type.erase.canonical word = type.canonical word
  | .elementary _ => rfl
  | .tuple components => by
    rw [Ty.erase, Ty.canonical, Ty.canonical, Param.canonicals_eraseAll word components]
  | .array element length => by
    rw [Ty.erase, Ty.canonical, Ty.canonical, element.canonical_erase word]

theorem Param.canonicals_eraseAll (word : String) :
    (ps : List Param) → Param.canonicals word (Param.eraseAll ps) = Param.canonicals word ps
  | [] => rfl
  | ⟨_, _, type⟩ :: rest => by
    rw [Param.eraseAll, Param.canonicals, Param.canonicals, type.canonical_erase word,
      Param.canonicals_eraseAll word rest]

end

namespace Param

theorem print_sighash (p : Param) : p.print .sighash = p.type.canonical "" := by
  change p.type.signature .sighash ++ "" = _
  rw [Ty.signature_sighash, String.append_empty]

theorem printList_sighash (ps : List Param) :
    printList .sighash ps = (Ty.tuple ps).canonical "" := by
  have hps : ps.map (print .sighash) = canonicals "" ps := by
    rw [← signatures_sighash, signatures_eq]
    rfl
  rw [printList, hps, Ty.canonical]
  rfl

end Param

namespace Grammar

theorem Parameter.of_head {hs : List Symbol} {type : Ty} (h : Head hs type)
    (lengths : List (Option UInt64)) :
    Parameter false (hs ++ lengths.map .bracket) ⟨none, none, lengths.foldl Ty.array type⟩ := by
  have hm : Modifiers false ([].map Symbol.keyword) none := .mk ⟨by simp, .nil⟩ (by simp)
  have hp := Parameter.mk lengths h hm Name.unnamed
  rwa [List.map_nil, List.append_nil, List.append_nil] at hp

/-- With the word or without it, parentheses make a tuple. -/
theorem spells_tuple_word {word inner : String} {ts : List Symbol} {ps : List Param}
    (hw : word = "tuple" ∨ word = "") (hg : Group false (.openParen :: ts ++ [.closeParen]) ps)
    (hs : Spells true inner.toList ts) :
    ∃ hs, Head hs (.tuple ps) ∧ Spells false (word ++ "(" ++ inner ++ ")").toList hs := by
  have hgroup :
      Spells false ("(" ++ (inner ++ ")")).toList (.openParen :: ts ++ [.closeParen]) := by
    rw [String.toList_append, String.toList_append]
    exact .group hs .nil
  rw [String.append_assoc, String.append_assoc]
  obtain rfl | rfl := hw
  · refine ⟨_, .wordedTuple hg, ?_⟩
    rw [String.toList_append]
    apply Spells.keyword (by decide) (by decide) _ hgroup
    rw [String.toList_append]
    exact apart_cons (by decide) _
  · rw [String.empty_append]
    exact ⟨_, .tuple hg, hgroup⟩

mutual

/-- The canonical text of a type is one that it can be read from, but for names and flags. -/
theorem canonical_spelled {word : String} (hw : word = "tuple" ∨ word = "") :
    (type : Ty) → ∃ (hs : List Symbol) (base : Ty) (lengths : List (Option UInt64)),
      Head hs base ∧ type.erase = lengths.foldl Ty.array base ∧
        Spells false (type.canonical word).toList (hs ++ lengths.map .bracket)
  | .elementary e => ⟨[.type e.text], .elementary e, [], .elementary e.ofString_text, rfl,
      .of_append_nil (.type e apart_nil .nil)⟩
  | .tuple components => by
    obtain ⟨ts, hgroup, hspell⟩ : ∃ ts,
        Group false (.openParen :: ts ++ [.closeParen]) (Param.eraseAll components) ∧
        Spells true (",".intercalate (Param.canonicals word components)).toList ts := by
      obtain rfl | ⟨ts, hparameters, hspell⟩ := canonicals_spelled hw components
      · exact ⟨[], .empty, .nil⟩
      · exact ⟨ts, .list hparameters, hspell⟩
    obtain ⟨hs, hhead, hspell⟩ := spells_tuple_word hw hgroup hspell
    exact ⟨hs, _, [], hhead, rfl, by rwa [List.map_nil, List.append_nil, Ty.canonical]⟩
  | .array element length => by
    obtain ⟨hs, base, lengths, hhead, herase, hspell⟩ := canonical_spelled hw element
    refine ⟨hs, base, lengths ++ [length], hhead, ?_, ?_⟩
    · rw [Ty.erase, herase, List.foldl_append]
      rfl
    · obtain ⟨rest, hrest⟩ := exists_toList_arraySuffix length
      have hsuffix : Spells false (arraySuffix length).toList [.bracket length] :=
        .of_append_nil (.bracket length .nil)
      have hapart : Apart (arraySuffix length).toList := hrest ▸ apart_cons (by decide) rest
      rw [Ty.canonical, String.toList_append, List.map_append, ← List.append_assoc]
      exact hspell.append hsuffix hapart

theorem canonicals_spelled {word : String} (hw : word = "tuple" ∨ word = "") :
    (ps : List Param) → ps = [] ∨ ∃ ts, Parameters false ts (Param.eraseAll ps) ∧
      Spells true (",".intercalate (Param.canonicals word ps)).toList ts
  | [] => .inl rfl
  | ⟨_, _, type⟩ :: rest => by
    obtain ⟨hs, base, lengths, hhead, herase, hspell⟩ := canonical_spelled hw type
    have hp := Parameter.of_head hhead lengths
    rw [← herase] at hp
    right
    rw [Param.eraseAll, Param.canonicals]
    obtain rfl | ⟨ts, hps, hspells⟩ := canonicals_spelled hw rest
    · refine ⟨_, .one hp, ?_⟩
      rw [Param.canonicals, String.intercalate_singleton]
      exact hspell.toListed
    · refine ⟨_, .cons hp hps, ?_⟩
      have hne : Param.canonicals word rest ≠ [] := by
        have hrest := hps.params_ne_nil
        rw [Param.eraseAll_eq] at hrest
        rw [Param.canonicals_eq]
        simpa using hrest
      rw [String.intercalate_cons_of_ne_nil hne, String.toList_append, String.toList_append,
        List.append_assoc]
      exact hspell.toListed.append (.comma hspells) (apart_cons (by decide) _)

end

end Grammar

/-- Canonical text is read as what it was written for. -/
theorem Param.ofSignature_canonical {word : String} (hw : word = "tuple" ∨ word = "") (p : Param) :
    ofSignature false (p.type.canonical word) = .ok p.erase := by
  obtain ⟨hs, base, lengths, hhead, herase, hspell⟩ := Grammar.canonical_spelled hw p.type
  obtain ⟨tokens, hscan, hsymbols⟩ := Token.scan_of_spells hspell
  refine ofSignature_eq_ok.mpr ⟨tokens, hscan, ?_⟩
  rw [hsymbols, erase, herase]
  exact Grammar.Parameter.of_head hhead lengths

theorem Ty.canonical_inj {word : String} (hw : word = "tuple" ∨ word = "") {s t : Ty} :
    s.canonical word = t.canonical word ↔ s.erase = t.erase := by
  constructor
  · intro h
    have hs := Param.ofSignature_canonical hw (.ofType s)
    have ht := Param.ofSignature_canonical hw (.ofType t)
    rw [Param.ofType] at hs ht
    rw [h, ht] at hs
    exact (congrArg Param.type (Except.ok.inj hs)).symm
  · intro h
    rw [← s.canonical_erase, h, t.canonical_erase]

namespace Ty

/-- The characters of a type's text are those of words, numbers and marks. -/
theorem forall_mem_canonical {P : Char → Prop} {word : String} (hword : ∀ c ∈ word.toList, P c)
    (hmarks : P '(' ∧ P ',' ∧ P ')' ∧ P '[' ∧ P ']') (hdigit : ∀ c, c.isDigit = true → P c)
    (helementary : ∀ e : Elementary, ∀ c ∈ e.text.toList, P c) (type : Ty) :
    ∀ c ∈ (type.canonical word).toList, P c := by
  obtain ⟨hopen, hcomma, hclose, hleft, hright⟩ := hmarks
  induction type using Ty.induction with
  | elementary e => exact helementary e
  | array element length ih =>
    rw [canonical, String.toList_append]
    exact List.forall_mem_append.mpr ⟨ih, forall_mem_arraySuffix hleft hright hdigit length⟩
  | tuple components ih =>
    have hopen : ∀ c ∈ "(".toList, P c := List.forall_mem_singleton.mpr hopen
    have hcomma : ∀ c ∈ ",".toList, P c := List.forall_mem_singleton.mpr hcomma
    have hclose : ∀ c ∈ ")".toList, P c := List.forall_mem_singleton.mpr hclose
    have htexts : ∀ text ∈ Param.canonicals word components, ∀ c ∈ text.toList, P c := by
      rw [Param.canonicals_eq, List.forall_mem_map]
      exact ih
    rw [canonical, String.toList_append, String.toList_append, String.toList_append]
    simp only [List.forall_mem_append]
    exact ⟨⟨⟨hword, hopen⟩, Text.forall_mem_intercalate hcomma htexts⟩, hclose⟩

theorem isBlank_of_mem_text {c : Char} (type : Ty) (h : c ∈ type.text.toList) :
    Text.isBlank c = false := by
  rw [text_eq] at h
  exact forall_mem_canonical isBlank_of_mem_tuple (by decide)
    (fun _ hd => isBlank_of_isWordChar (isWordChar_of_isDigit hd))
    (fun e _ hc => isBlank_of_isWordChar (e.isWordChar_of_mem_text hc)) type c h

theorem toList_text_tuple (components : List Param) :
    ∃ inner, (tuple components).text.toList = "tuple(".toList ++ (inner ++ [')']) := by
  refine ⟨(",".intercalate (Param.typeTexts components)).toList, ?_⟩
  rw [text, String.toList_append, String.toList_append, List.append_assoc]
  rfl

theorem headOf_text_tuple (components : List Param) :
    headOf (tuple components).text none = .ok (tuple components).erase := by
  obtain ⟨inner, htext⟩ := toList_text_tuple components
  have hread := Param.ofSignature_canonical (.inl rfl) (.ofType (tuple components))
  rw [← text_eq] at hread
  change Param.ofSignature false (tuple components).text = _ at hread
  rw [headOf_paren (.inr htext), hread]
  rfl

/-- The text of a type says by itself what the type is in JSON as well. -/
theorem ofText_text : (type : Ty) → ofText type.text none = .ok type.erase
  | .elementary e => ofText_jsonWord (.elementary e) trivial
  | .tuple components => by
    have hl : (tuple components).text.toList.getLast? ≠ some ']' := by
      obtain ⟨inner, htext⟩ := toList_text_tuple components
      rw [htext, ← List.append_assoc, List.getLast?_concat]
      decide
    rw [ofText_base (fun _ hc => isBlank_of_mem_text _ hc) hl, headOf_text_tuple]
  | .array element length =>
    ofText_suffix (fun _ hc => isBlank_of_mem_text element hc) (ofText_text element) length

end Ty

theorem Param.ofObject_text (p : Param) :
    ofObject false ⟨none, p.type.text, none, none⟩ = .ok p.erase := by
  rw [ofObject, ofComponents, Ty.ofText_text]
  rfl

/-- A name ends before the first parenthesis. -/
theorem Identifier.append_paren_inj {n m : Identifier} {cs ds : List Char} :
    n.text.toList ++ '(' :: cs = m.text.toList ++ '(' :: ds ↔ n = m ∧ cs = ds := by
  have hno (k : Identifier) : '(' ∉ k.text.toList :=
    fun h => absurd ((word_chars k.valid).2 _ h) (by decide)
  constructor
  · intro h
    obtain ⟨more, hn, -⟩ | ⟨more, hm, hd⟩ := append_eq_append_cons_iff.mp h
    · exact absurd (hn ▸ List.mem_append_right _ (List.mem_cons_self ..)) (hno n)
    · obtain ⟨rfl, hd⟩ | ⟨more, rfl, -⟩ := List.cons_eq_append_iff.mp hd
      · rw [List.append_nil] at hm
        obtain ⟨n, hn⟩ := n
        obtain ⟨m, hm'⟩ := m
        obtain rfl : m = n := String.toList_inj.mp hm
        exact ⟨rfl, (List.cons.inj hd).2⟩
      · exact absurd (hm ▸ List.mem_append_right _ (List.mem_cons_self ..)) (hno m)
  · rintro ⟨rfl, rfl⟩
    rfl

theorem Ty.toList_canonical_tuple (ps : List Param) :
    ∃ rest, ((tuple ps).canonical "").toList = '(' :: rest := by
  rw [canonical, String.empty_append, String.toList_append, String.toList_append]
  exact ⟨_, rfl⟩

namespace Declaration

variable {d e : Declaration} {n m : Identifier}

theorem print_sighash (h : d.name? = some n) :
    d.print .sighash = .ok (n.text ++ (Ty.tuple d.inputs).canonical "") := by
  rw [print, sighash, sighash?, h, Param.printList_sighash]
  rfl

/-- A sighash is made of the name and of the types of the inputs, and of nothing else. -/
theorem print_sighash_inj (hd : d.name? = some n) (he : e.name? = some m) :
    d.print .sighash = e.print .sighash ↔
      n = m ∧ d.inputs.map Param.erase = e.inputs.map Param.erase := by
  obtain ⟨cs, hcs⟩ := Ty.toList_canonical_tuple d.inputs
  obtain ⟨ds, hds⟩ := Ty.toList_canonical_tuple e.inputs
  have htypes : cs = ds ↔ d.inputs.map Param.erase = e.inputs.map Param.erase := by
    have hinj := @Ty.canonical_inj "" (.inr rfl) (.tuple d.inputs) (.tuple e.inputs)
    rw [← String.toList_inj, hcs, hds, List.cons_inj_right] at hinj
    rw [hinj, Ty.erase, Ty.erase, Ty.tuple.injEq, Param.eraseAll_eq, Param.eraseAll_eq]
  rw [print_sighash hd, print_sighash he, Except.ok.injEq, ← String.toList_inj,
    String.toList_append, String.toList_append, hcs, hds, Identifier.append_paren_inj, htypes]

end Declaration

/-- What canonical text and sighashes are of can be read back from them, but for names and flags
inside, and so they tell apart whatever differs in more than these. -/
theorem canonical_text_faithful :
    (∀ p : Param, Param.parse false p.type.text = .ok p.erase ∧
      Param.parse false (p.print .sighash) = .ok p.erase ∧
      Param.ofObject false ⟨none, p.type.text, none, none⟩ = .ok p.erase) ∧
    (∀ p q : Param, (p.type.text = q.type.text ↔ p.erase = q.erase) ∧
      (p.print .sighash = q.print .sighash ↔ p.erase = q.erase)) ∧
    ∀ (d e : Declaration) (n m : Identifier), d.name? = some n → e.name? = some m →
      (∃ text, d.print .sighash = .ok text) ∧
      (d.print .sighash = e.print .sighash ↔
        n = m ∧ d.inputs.map Param.erase = e.inputs.map Param.erase) := by
  have herase (p q : Param) : p.type.erase = q.type.erase ↔ p.erase = q.erase := by
    simp [Param.erase]
  refine ⟨?_, ?_, ?_⟩
  · intro p
    have htext := Param.ofSignature_canonical (.inl rfl) p
    have hsighash := Param.ofSignature_canonical (.inr rfl) p
    rw [← Ty.text_eq] at htext
    rw [← Param.print_sighash] at hsighash
    exact ⟨Param.parse_of_ofSignature htext, Param.parse_of_ofSignature hsighash, p.ofObject_text⟩
  · intro p q
    rw [Ty.text_eq, Ty.text_eq, Param.print_sighash, Param.print_sighash,
      Ty.canonical_inj (.inl rfl), Ty.canonical_inj (.inr rfl)]
    exact ⟨herase p q, herase p q⟩
  · intro d e n m hd he
    exact ⟨⟨_, Declaration.print_sighash hd⟩, Declaration.print_sighash_inj hd he⟩

theorem canonical_text_faithful_nested :
    Param.parse false "(bool[],())[2]" =
      .ok ⟨none, none, .array (.tuple [⟨none, none, .array (.elementary .bool) none⟩,
        ⟨none, none, .tuple []⟩]) (some 2)⟩ ∧
    (Declaration.event ⟨"E", by decide⟩ [⟨some ⟨"a", by decide⟩, some true, .tuple []⟩] true).print
        .sighash =
      (Declaration.event ⟨"E", by decide⟩ [⟨none, some false, .tuple []⟩] false).print
        .sighash := by
  have hread := (canonical_text_faithful.1 ⟨some ⟨"a", by decide⟩, some true,
    .array (.tuple [⟨some ⟨"b", by decide⟩, none, .array (.elementary .bool) none⟩,
      ⟨none, none, .tuple []⟩]) (some 2)⟩).2.1
  refine ⟨?_, (canonical_text_faithful.2.2 _ _ _ _ rfl rfl).2.mpr ⟨rfl, rfl⟩⟩
  exact hread

end ContractAbi
