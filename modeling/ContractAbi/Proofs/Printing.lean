import ContractAbi.Declaration.Object
import ContractAbi.Proofs.Renaming
import ContractAbi.Proofs.Signature
import ContractAbi.Proofs.Spelling

/-!
Signatures are read back, those in full with their names. What is written for something derived
spells symbols from which the same is derived, but for names that are not written; its words need
not be those that it was derived from.
-/

namespace ContractAbi

open Piece

/-- The styles of signatures that can be read. -/
def Style.Readable (style : Style) : Prop := style = .minimal ∨ style = .full

/-- A name as far as it is written. -/
def Style.nameShown : Style → Option Identifier → Option Identifier
  | .full, name => name
  | _, _ => none

section Readable

variable {style : Style} (hs : style.Readable)

include hs

theorem Param.printList_eq (ps : List Param) :
    Param.printList style ps =
      "(" ++ style.separator.intercalate (ps.map (Param.signature style)) ++ ")" := by
  obtain rfl | rfl := hs <;> rfl

theorem Ty.signature_tuple (ps : List Param) :
    (Ty.tuple ps).signature style = "tuple" ++ Param.printList style ps := by
  have hword : style.tupleWord = "tuple" := by obtain rfl | rfl := hs <;> rfl
  rw [Ty.signature, Param.signatures_eq, Param.printList_eq hs, hword, String.append_assoc,
    String.append_assoc, String.append_assoc]

theorem Style.label_eq (name : Option Identifier) (indexed : Option Bool) :
    style.label name indexed =
      (if indexed = some true then " indexed" else "") ++
        (style.nameShown name).elim "" (" " ++ ·.text) := by
  obtain rfl | rfl := hs
  · exact String.append_empty.symm
  · cases name with
    | none => exact String.append_empty.symm
    | some name => exact String.append_assoc

end Readable

theorem Ty.signature_foldl (style : Style) (type : Ty) (lengths : List (Option UInt64)) :
    (lengths.foldl Ty.array type).signature style =
      type.signature style ++ String.join (lengths.map arraySuffix) := by
  induction lengths generalizing type with
  | nil => rw [List.foldl_nil, List.map_nil, String.join_nil, String.append_empty]
  | cons n lengths ih =>
    rw [List.foldl_cons, ih, Ty.signature, List.map_cons, String.join_cons, String.append_assoc]

namespace Spells

variable {listed : Bool} {cs : List Char} {ss : List Symbol}

theorem keyword {w : String} (hw : isIdentifier w = true) (hk : isKeyword w = true) (hcs : Apart cs)
    (h : Spells listed cs ss) : Spells listed (w.toList ++ cs) (.keyword w :: ss) := by
  have hkind : Lexeme.kindOfWord w = .keyword := by rw [Lexeme.kindOfWord, if_pos hk]
  have hspell := word hw hcs h
  rwa [hkind] at hspell

theorem identifier {name : Identifier} (hk : Lexeme.kindOfWord name.text = .identifier)
    (hcs : Apart cs) (h : Spells listed cs ss) :
    Spells listed (name.text.toList ++ cs) (.identifier name.text :: ss) := by
  have hspell := word name.valid hcs h
  rwa [hk] at hspell

theorem type (e : Elementary) (hcs : Apart cs) (h : Spells listed cs ss) :
    Spells listed (e.text.toList ++ cs) (.type e.text :: ss) := by
  have hspell := word e.isIdentifier_text hcs h
  rwa [e.kindOfWord_text] at hspell

theorem brackets (lengths : List (Option UInt64)) (h : Spells listed cs ss) :
    Spells listed ((String.join (lengths.map arraySuffix)).toList ++ cs)
      (lengths.map .bracket ++ ss) := by
  induction lengths with
  | nil => exact h
  | cons n lengths ih =>
    rw [List.map_cons, String.join_cons, String.toList_append, List.append_assoc]
    exact .bracket n ih

theorem space (h : Spells listed cs ss) : Spells listed (' ' :: cs) ss := .blank rfl h

theorem separator {style : Style} (hs : style.Readable) (h : Spells true cs ss) :
    Spells true (style.separator.toList ++ cs) (.comma :: ss) := by
  obtain rfl | rfl := hs
  · exact .comma h
  · exact .comma h.space

end Spells

theorem apart_separator {style : Style} (hs : style.Readable) (cs : List Char) :
    Apart (style.separator.toList ++ cs) := by
  obtain rfl | rfl := hs <;> exact apart_cons (by decide) _

theorem exists_toList_arraySuffix (length : Option UInt64) :
    ∃ rest, (arraySuffix length).toList = '[' :: rest := by
  cases length with
  | none => exact ⟨[']'], rfl⟩
  | some n => exact ⟨n.toNat.repr.toList ++ [']'], by simp [arraySuffix]⟩

theorem apart_brackets (lengths : List (Option UInt64)) {cs : List Char} (h : Apart cs) :
    Apart ((String.join (lengths.map arraySuffix)).toList ++ cs) := by
  cases lengths with
  | nil => exact h
  | cons n lengths =>
    obtain ⟨rest, hn⟩ := exists_toList_arraySuffix n
    rw [List.map_cons, String.join_cons, String.toList_append, hn]
    exact apart_cons (by decide) _

namespace Grammar

theorem name_spelled {name : Option Identifier}
    (hname : ∀ n, name = some n → Lexeme.kindOfWord n.text = .identifier) :
    ∃ ns, Name ns name ∧ Spells false (name.elim "" (" " ++ ·.text)).toList ns ∧
      Apart (name.elim "" (" " ++ ·.text)).toList := by
  cases name with
  | none => exact ⟨[], .unnamed, .nil, apart_nil⟩
  | some n =>
    have hspell : Spells false n.text.toList [.identifier n.text] :=
      .of_append_nil (.identifier (hname n rfl) apart_nil .nil)
    rw [Option.elim_some, String.toList_append]
    exact ⟨_, .named n, hspell.space, apart_cons (by decide) _⟩

/-- What of a parameter's words is written: the flag if it is set, and the name if it is shown. -/
theorem label_spelled {style : Style} (hs : style.Readable) {indexable : Bool} {ms : List Symbol}
    {flag : Option Bool} {name : Option Identifier} (hm : Modifiers indexable ms flag)
    (hname : ∀ n, name = some n → Lexeme.kindOfWord n.text = .identifier) :
    ∃ us ns, Modifiers indexable us flag ∧ Name ns (style.nameShown name) ∧
      Spells false (style.label name flag).toList (us ++ ns) ∧
        Apart (style.label name flag).toList := by
  have hshown : ∀ n, style.nameShown name = some n → Lexeme.kindOfWord n.text = .identifier := by
    obtain rfl | rfl := hs
    · exact nofun
    · exact hname
  obtain ⟨ns, hn, hns⟩ := name_spelled hshown
  rw [Style.label_eq hs, String.toList_append]
  -- of the modifiers only `indexed` leaves a trace in the parameter, and so in its text
  cases hm with
  | @mk words hw hallowed =>
    by_cases hi : "indexed" ∈ words
    · obtain rfl := hallowed hi
      have hm : Modifiers true (["indexed"].map .keyword) (some true) := by
        simpa using Modifiers.mk ⟨by simp, by simp⟩ fun _ : "indexed" ∈ ["indexed"] => rfl
      have hkeyword : Spells false
          ("indexed".toList ++ ((style.nameShown name).elim "" (" " ++ ·.text)).toList)
          ([.keyword "indexed"] ++ ns) :=
        .keyword (by decide) (by decide) hns.2 hns.1
      rw [if_pos rfl, decide_eq_true hi, if_pos rfl]
      exact ⟨_, ns, hm, hn, hkeyword.space, apart_cons (by decide) _⟩
    · have hm : Modifiers indexable ([].map Symbol.keyword)
          (if indexable then some (decide ("indexed" ∈ [])) else none) :=
        .mk ⟨by simp, .nil⟩ (by simp)
      rw [decide_eq_false hi]
      rw [decide_eq_false (by simp)] at hm
      refine ⟨_, ns, hm, hn, ?_⟩
      rw [if_neg (by cases indexable <;> simp)]
      exact hns

/-- The identifiers among these are read as identifiers where they are written. -/
def Spellable (ts : List Symbol) : Prop :=
  ∀ w, .identifier w ∈ ts → Lexeme.kindOfWord w = .identifier

theorem Spellable.of_subset {ts us : List Symbol} (h : Spellable us) (hsub : ts ⊆ us) :
    Spellable ts := fun w hw => h w (hsub hw)

theorem Spellable.left {ts us : List Symbol} (h : Spellable (ts ++ us)) : Spellable ts :=
  h.of_subset (List.subset_append_left _ _)

theorem Spellable.right {ts us : List Symbol} (h : Spellable (ts ++ us)) : Spellable us :=
  h.of_subset (List.subset_append_right _ _)

section Readable

variable {style : Style} (hs : style.Readable)

include hs

theorem spells_group {listed : Bool} {ps : List Param} {ts : List Symbol}
    (h : Spells true (style.separator.intercalate (ps.map (Param.signature style))).toList ts) :
    Spells listed (Param.printList style ps).toList (.openParen :: ts ++ [.closeParen]) := by
  rw [Param.printList_eq hs, String.toList_append, String.toList_append]
  exact .group h .nil

theorem apart_printList (ps : List Param) : Apart (Param.printList style ps).toList := by
  rw [Param.printList_eq hs, String.toList_append, String.toList_append]
  exact apart_cons (by decide) _

theorem spells_tuple {ps : List Param} {ts : List Symbol}
    (h : Spells false (Param.printList style ps).toList ts) :
    Spells false ((Ty.tuple ps).signature style).toList (.keyword "tuple" :: ts) := by
  rw [Ty.signature_tuple hs, String.toList_append]
  exact .keyword (by decide) (by decide) (apart_printList hs ps) h

end Readable

mutual

/-- A parameter is written as it could have been read with the names that are shown. -/
theorem Parameter.spelled {style : Style} (hs : style.Readable) {indexable : Bool}
    {ts : List Symbol} {p : Param} :
    Parameter indexable ts p → Spellable ts →
      ∃ us, Parameter indexable us (p.rename style.nameShown) ∧
        Spells false (p.signature style).toList us
  | @Parameter.mk _ hds ms ns type flag name lengths head modifiers named, h => by
    have hname : ∀ n, name = some n → Lexeme.kindOfWord n.text = .identifier := by
      intro n hn
      subst hn
      cases named
      exact h n.text (by simp)
    obtain ⟨us, hhead, htype⟩ := head.spelled hs (h.of_subset (by simp [List.append_assoc]))
    obtain ⟨ms', ns', hmodifiers, hnamed, hlabel, hapart⟩ := label_spelled hs modifiers hname
    refine ⟨us ++ lengths.map .bracket ++ ms' ++ ns', ?_, ?_⟩
    · rw [Param.rename, Ty.rename_foldl]
      exact .mk lengths hhead hmodifiers hnamed
    · rw [Param.signature_mk, Ty.signature_foldl, String.toList_append, String.toList_append,
        List.append_assoc, List.append_assoc, List.append_assoc]
      exact htype.append (.brackets lengths hlabel) (apart_brackets lengths hapart)

theorem Head.spelled {style : Style} (hs : style.Readable) {ts : List Symbol} {type : Ty} :
    Head ts type → Spellable ts →
      ∃ us, Head us (type.rename style.nameShown) ∧ Spells false (type.signature style).toList us
  | @Head.elementary _ e _, _ =>
    ⟨[.type e.text], .elementary e.ofString_text, .of_append_nil (.type e apart_nil .nil)⟩
  | .tuple group, h => by
    obtain ⟨us, hgroup, hspell⟩ := group.spelled hs h
    exact ⟨_, .wordedTuple hgroup, spells_tuple hs hspell⟩
  | .wordedTuple group, h => by
    obtain ⟨us, hgroup, hspell⟩ := group.spelled hs (h.of_subset (List.subset_cons_self _ _))
    exact ⟨_, .wordedTuple hgroup, spells_tuple hs hspell⟩

theorem Group.spelled {style : Style} (hs : style.Readable) {indexable : Bool} {ts : List Symbol}
    {ps : List Param} :
    Group indexable ts ps → Spellable ts →
      ∃ us, Group indexable us (Param.renameAll style.nameShown ps) ∧
        Spells false (Param.printList style ps).toList us
  | .empty, _ => ⟨_, .empty, @spells_group _ hs false [] [] .nil⟩
  | .list parameters, h => by
    obtain ⟨us, hparameters, hspell⟩ := parameters.spelled hs (h.of_subset (by simp))
    exact ⟨_, .list hparameters, spells_group hs hspell⟩

theorem Parameters.spelled {style : Style} (hs : style.Readable) {indexable : Bool}
    {ts : List Symbol} {ps : List Param} :
    Parameters indexable ts ps → Spellable ts →
      ∃ us, Parameters indexable us (Param.renameAll style.nameShown ps) ∧
        Spells true (style.separator.intercalate (ps.map (Param.signature style))).toList us
  | @Parameters.one _ _ p parameter, h => by
    obtain ⟨us, hparameter, hspell⟩ := parameter.spelled hs h
    rw [Param.renameAll_cons]
    exact ⟨us, .one hparameter, by simpa using hspell.toListed⟩
  | @Parameters.cons _ _ _ p ps parameter parameters, h => by
    obtain ⟨us, hparameter, hspell⟩ := parameter.spelled hs (h.of_subset (by simp))
    obtain ⟨vs, hparameters, hspells⟩ := parameters.spelled hs (h.of_subset (by simp))
    rw [Param.renameAll_cons]
    refine ⟨us ++ .comma :: vs, .cons hparameter hparameters, ?_⟩
    have hne : ps.map (Param.signature style) ≠ [] := by simpa using parameters.params_ne_nil
    rw [List.map_cons, String.intercalate_cons_of_ne_nil hne, String.toList_append,
      String.toList_append, List.append_assoc]
    exact hspell.toListed.append (.separator hs hspells) (apart_separator hs _)

end

/-- Texts with a space between them spell these symbols. -/
inductive SpellsWords : List String → List Symbol → Prop where
  | nil : SpellsWords [] []
  | cons {text : String} {texts : List String} {ss us : List Symbol}
      (h : Spells false text.toList ss) (hs : SpellsWords texts us) :
      SpellsWords (text :: texts) (ss ++ us)

namespace SpellsWords

variable {texts more : List String} {ss us : List Symbol}

theorem append (h : SpellsWords texts ss) (hs : SpellsWords more us) :
    SpellsWords (texts ++ more) (ss ++ us) := by
  induction h with
  | nil => exact hs
  | cons h _ ih =>
    rw [List.cons_append, List.append_assoc]
    exact .cons h ih

theorem spells (h : SpellsWords texts ss) : Spells false (" ".intercalate texts).toList ss := by
  induction h with
  | nil => exact .nil
  | @cons text texts _ _ h hs ih =>
    cases texts with
    | nil =>
      cases hs
      rw [String.intercalate_singleton, List.append_nil]
      exact h
    | cons next texts =>
      rw [String.intercalate_cons_cons, String.toList_append, String.toList_append,
        List.append_assoc]
      exact h.append ih.space (apart_cons (by decide) _)

theorem single {text : String} (h : Spells false text.toList ss) : SpellsWords [text] ss := by
  rw [← List.append_nil ss]
  exact .cons h .nil

theorem keyword {w : String} (hw : isIdentifier w = true) (hk : isKeyword w = true) :
    SpellsWords [w] [.keyword w] :=
  single (.of_append_nil (.keyword hw hk apart_nil .nil))

end SpellsWords

theorem Visibility.of_words {words : List String} {m : Mutability}
    (hw : Words Keyword.visibility words) (hone : ∀ u ∈ words, ∀ v ∈ words, u = v)
    (hm : resolve words = m) : Visibility (words.map .keyword) m := by
  rw [← hm]
  exact .mk hw (fun u _ v _ hu hv => hone u hu v hv) fun u _ v _ hu hv => hone u hu v hv

theorem visibility_spelled (m : Mutability) :
    ∃ vs, Visibility vs m ∧ SpellsWords (if m = .nonpayable then [] else [m.name]) vs := by
  have hsingle (hw : m.name ∈ Keyword.visibility) (hm : resolve [m.name] = m) :
      Visibility [.keyword m.name] m :=
    .of_words ⟨by simpa using hw, by simp⟩ (by simp) hm
  cases m with
  | pure => exact ⟨_, hsingle (by decide) (by decide), .keyword (by decide) (by decide)⟩
  | view => exact ⟨_, hsingle (by decide) (by decide), .keyword (by decide) (by decide)⟩
  | payable => exact ⟨_, hsingle (by decide) (by decide), .keyword (by decide) (by decide)⟩
  | nonpayable =>
    have hnone : Visibility ([].map .keyword) .nonpayable :=
      .of_words ⟨by simp, .nil⟩ (by simp) (by decide)
    exact ⟨_, hnone, .nil⟩

theorem gas_spelled (gas : Option Nat) :
    ∃ gs, Gas gs gas ∧ SpellsWords (Declaration.gasWords gas) gs := by
  cases gas with
  | none => exact ⟨[], .omitted, .nil⟩
  | some n =>
    refine ⟨_, .stated (Text.decimal?_repr n), ?_⟩
    have hspell : Spells false n.repr.toList [.number n.repr] :=
      .of_append_nil (.number (Text.decimal?_repr n) apart_nil .nil)
    apply SpellsWords.single
    rw [String.toList_append]
    exact .atSign hspell

theorem payable_spelled (payable : Bool) :
    ∃ words, Words Keyword.deployment words ∧ decide ("payable" ∈ words) = payable ∧
      SpellsWords (Declaration.payableWords payable) (words.map .keyword) := by
  cases payable with
  | false => exact ⟨[], ⟨by simp, .nil⟩, by simp, .nil⟩
  | true =>
    exact ⟨["payable"], ⟨by decide, by simp⟩, by simp, .keyword (by decide) (by decide)⟩

theorem spells_keyword_empty {w : String} (hw : isIdentifier w = true) (hk : isKeyword w = true) :
    SpellsWords [w ++ "()"] [.keyword w, .openParen, .closeParen] := by
  have hgroup : Spells false "()".toList [.openParen, .closeParen] := .group .nil .nil
  apply SpellsWords.single
  rw [String.toList_append]
  exact .keyword hw hk (apart_cons (by decide) _) hgroup

section Readable

variable {style : Style} (hs : style.Readable)

include hs

theorem Returns.spelled {os : List Symbol} {outputs : List Param} (h : Returns os outputs)
    (hspellable : Spellable os) :
    ∃ us, Returns us (Param.renameAll style.nameShown outputs) ∧
      SpellsWords
        (if outputs.isEmpty then [] else ["returns", Param.printList style outputs]) us := by
  by_cases he : outputs.isEmpty = true
  · rw [if_pos he]
    rw [List.isEmpty_iff] at he
    subst he
    exact ⟨[], .omitted, .nil⟩
  · cases h with
    | omitted => exact absurd rfl he
    | stated group =>
      obtain ⟨us, hgroup, hspell⟩ :=
        group.spelled hs (hspellable.of_subset (List.subset_cons_self _ _))
      rw [if_neg he]
      refine ⟨_, .stated hgroup, ?_⟩
      have hreturns : SpellsWords ["returns"] [.keyword "returns"] :=
        .keyword (by decide) (by decide)
      exact hreturns.append (.single hspell)

theorem spells_named {name : Identifier} {is : List Symbol} {inputs : List Param}
    (hname : Lexeme.kindOfWord name.text = .identifier)
    (h : Spells false (Param.printList style inputs).toList is) :
    Spells false (name.text ++ Param.printList style inputs).toList
      (.identifier name.text :: is) := by
  rw [String.toList_append]
  exact .identifier hname (apart_printList hs inputs) h

theorem spells_keyword_group {w : String} {is : List Symbol} {inputs : List Param}
    (hw : isIdentifier w = true) (hk : isKeyword w = true)
    (h : Spells false (Param.printList style inputs).toList is) :
    Spells false (w ++ Param.printList style inputs).toList (.keyword w :: is) := by
  rw [String.toList_append]
  exact .keyword hw hk (apart_printList hs inputs) h

/-- What stands before the clauses of a declaration with a name. -/
theorem named_spelled {w : String} {name : Identifier} {indexable : Bool} {is : List Symbol}
    {inputs : List Param} (hw : isIdentifier w = true) (hk : isKeyword w = true)
    (hi : Group indexable is inputs) (h : Spellable (.keyword w :: .identifier name.text :: is)) :
    ∃ us, Group indexable us (Param.renameAll style.nameShown inputs) ∧
      SpellsWords [w, name.text ++ Param.printList style inputs]
        (.keyword w :: .identifier name.text :: us) := by
  obtain ⟨us, hgroup, hspell⟩ := hi.spelled hs (h.of_subset (by simp))
  have hname : Lexeme.kindOfWord name.text = .identifier := h name.text (by simp)
  exact ⟨us, hgroup, (SpellsWords.keyword hw hk).append (.single (spells_named hs hname hspell))⟩

/-- A declaration is written as it could have been read with the names that are shown. -/
theorem Declares.spelled {ts : List Symbol} {d : Declaration} (hd : Declares ts d)
    (h : Spellable ts) :
    ∃ us, Declares us (d.rename style.nameShown) ∧
      Spells false (d.signature style).toList us := by
  cases hd with
  | @constructor is gs inputs words gas hi hw hg =>
    obtain ⟨us, hgroup, hspell⟩ :=
      hi.spelled hs (h.left.left.of_subset (List.subset_cons_self _ _))
    obtain ⟨ws, hws, hpayable, hwords⟩ := payable_spelled (decide ("payable" ∈ words))
    obtain ⟨gs', hgas, hgwords⟩ := gas_spelled gas
    have hhead : SpellsWords ["constructor" ++ Param.printList style inputs]
        (.keyword "constructor" :: us) :=
      .single (spells_keyword_group hs (by decide) (by decide) hspell)
    have hall := (hhead.append hwords).append hgwords
    rw [List.append_assoc ["constructor" ++ Param.printList style inputs]] at hall
    refine ⟨_, hpayable ▸ .constructor hgroup hws hgas, hall.spells⟩
  | error name hi =>
    obtain ⟨us, hgroup, hwords⟩ := named_spelled hs (by decide) (by decide) hi h
    exact ⟨_, .error name hgroup, hwords.spells⟩
  | struct name hi =>
    obtain ⟨us, hgroup, hwords⟩ := named_spelled hs (by decide) (by decide) hi h
    exact ⟨_, .struct name hgroup, hwords.spells⟩
  | event name anonymous hi =>
    obtain ⟨us, hgroup, hwords⟩ := named_spelled hs (by decide) (by decide) hi h.left
    refine ⟨_, .event name anonymous hgroup, (hwords.append ?_).spells⟩
    cases anonymous with
    | false => exact .nil
    | true => exact .keyword (by decide) (by decide)
  | @function is vs os gs inputs outputs mutability gas name hi hv ho hg =>
    obtain ⟨us, hgroup, hwords⟩ := named_spelled hs (by decide) (by decide) hi h.left.left.left
    obtain ⟨vs, hvis, hvwords⟩ := visibility_spelled mutability
    obtain ⟨os, hret, howords⟩ := ho.spelled hs h.left.right
    obtain ⟨gs, hgas, hgwords⟩ := gas_spelled gas
    have hall := ((hwords.append hvwords).append howords).append hgwords
    -- the grammar groups the clauses from the left, the printer from the right
    rw [List.append_assoc [_, _], List.append_assoc [_, _]] at hall
    exact ⟨_, .function name hgroup hvis hret hgas, hall.spells⟩
  | fallback payable hi ht hv ho hb =>
    obtain ⟨vs, hvis, hvwords⟩ := visibility_spelled (if payable then .payable else .nonpayable)
    have hhead : SpellsWords ["fallback" ++ "()"] [.keyword "fallback", .openParen, .closeParen] :=
      spells_keyword_empty (by decide) (by decide)
    -- neither inputs nor outputs of a fallback are written, and it may go without both
    have hd := Declares.fallback payable .empty (.inl rfl) hvis .omitted (.inl rfl)
    rw [List.append_nil] at hd
    refine ⟨_, hd, SpellsWords.spells ?_⟩
    have hall := hhead.append hvwords
    cases payable <;> exact hall
  | receive hv =>
    obtain ⟨vs, hvis, hvwords⟩ := visibility_spelled .payable
    have hhead : SpellsWords ["receive" ++ "()"] [.keyword "receive", .openParen, .closeParen] :=
      spells_keyword_empty (by decide) (by decide)
    exact ⟨_, .receive hvis, (hhead.append hvwords).spells⟩

end Readable

end Grammar

theorem Token.spellable_of_scan {text : String} {tokens : List Token}
    (h : Token.scan text = .ok tokens) : Grammar.Spellable (tokens.map Token.symbol) := by
  obtain ⟨items, -, hholds⟩ := Token.scan_eq_ok h
  intro w hw
  have hl : (Symbol.identifier w).Lexical := hholds.lexical rfl hw
  exact hl.1

theorem Param.parse_of_ofSignature {indexable : Bool} {text : String} {p : Param}
    (h : Param.ofSignature indexable text = .ok p) : Param.parse indexable text = .ok p := by
  obtain ⟨tokens, hscan, -⟩ := Param.ofSignature_eq_ok.mp h
  rw [Param.parse, if_neg (Token.head?_of_scan hscan), h]

theorem Declaration.parse_of_ofSignature {text : String} {d : Declaration}
    (h : Declaration.ofSignature text = .ok d) : Declaration.parse text = .ok d := by
  obtain ⟨tokens, hscan, -⟩ := Declaration.ofSignature_eq_ok.mp h
  rw [Declaration.parse, if_neg (Token.head?_of_scan hscan), h]

section Readable

variable {style : Style} (hs : style.Readable) {text : String}

include hs

theorem Param.ofSignature_signature_shown {indexable : Bool} {p : Param}
    (h : Param.ofSignature indexable text = .ok p) :
    Param.ofSignature indexable (p.signature style) = .ok (p.rename style.nameShown) := by
  obtain ⟨tokens, hscan, hp⟩ := Param.ofSignature_eq_ok.mp h
  obtain ⟨ts, hp', hspell⟩ := hp.spelled hs (Token.spellable_of_scan hscan)
  obtain ⟨tokens', hscan', hts⟩ := Token.scan_of_spells hspell
  exact Param.ofSignature_eq_ok.mpr ⟨tokens', hscan', hts ▸ hp'⟩

theorem Declaration.ofSignature_signature_shown {d : Declaration}
    (h : Declaration.ofSignature text = .ok d) :
    Declaration.ofSignature (d.signature style) = .ok (d.rename style.nameShown) := by
  obtain ⟨tokens, hscan, hd⟩ := Declaration.ofSignature_eq_ok.mp h
  obtain ⟨ts, hd', hspell⟩ := hd.spelled hs (Token.spellable_of_scan hscan)
  obtain ⟨tokens', hscan', hts⟩ := Token.scan_of_spells hspell
  exact Declaration.ofSignature_eq_ok.mpr ⟨tokens', hscan', hts ▸ hd'⟩

end Readable

theorem Param.ofSignature_signature {indexable : Bool} {text : String} {p : Param}
    (h : Param.ofSignature indexable text = .ok p) :
    Param.ofSignature indexable (p.signature .full) = .ok p :=
  (Param.ofSignature_signature_shown (.inr rfl) h).trans (congrArg _ p.rename_id)

theorem Declaration.ofSignature_signature {text : String} {d : Declaration}
    (h : Declaration.ofSignature text = .ok d) :
    Declaration.ofSignature (d.signature .full) = .ok d :=
  (Declaration.ofSignature_signature_shown (.inr rfl) h).trans (congrArg _ d.rename_id)

/-- Whatever has been read from signature text is read again from the text it is written as. -/
theorem signature_round_trip (text : String)
    (h : (Text.trimStart text.toList).head? ≠ some '\x7b') :
    (∀ d, Declaration.parse text = .ok d →
      ∃ printed, d.print .full = .ok printed ∧ Declaration.parse printed = .ok d) ∧
    ∀ indexable p, Param.parse indexable text = .ok p →
      Param.parse indexable (p.print .full) = .ok p := by
  refine ⟨?_, ?_⟩
  · intro d hd
    rw [Declaration.parse, if_neg h] at hd
    exact ⟨_, rfl, Declaration.parse_of_ofSignature (Declaration.ofSignature_signature hd)⟩
  · intro indexable p hp
    rw [Param.parse, if_neg h] at hp
    exact Param.parse_of_ofSignature (Param.ofSignature_signature hp)

theorem signature_round_trip_nested :
    (∃ printed, (Declaration.error ⟨"E", by decide⟩
        [⟨some ⟨"a", by decide⟩, none, .array (.tuple []) (some 2)⟩]).print .full = .ok printed ∧
      Declaration.parse printed = .ok (.error ⟨"E", by decide⟩
        [⟨some ⟨"a", by decide⟩, none, .array (.tuple []) (some 2)⟩])) ∧
    Param.parse true (Param.print .full ⟨none, some true, .elementary .bool⟩) =
      .ok ⟨none, some true, .elementary .bool⟩ :=
  ⟨(signature_round_trip " error E(()[2] memory a)" (by decide)).1 _
      (eq_ok_of_toOption (by decide +kernel)),
    (signature_round_trip "bool indexed" (by decide)).2 true _
      (eq_ok_of_toOption (by decide +kernel))⟩

/-- The minimal text of what has been read from signature text is read as the same without names,
for which the sighash and the minimal text are the same again. -/
theorem minimal_text_read_back_unnamed (text : String)
    (h : (Text.trimStart text.toList).head? ≠ some '\x7b') (d : Declaration)
    (hd : Declaration.parse text = .ok d) :
    ∃ printed, d.print .minimal = .ok printed ∧ Declaration.parse printed = .ok d.unnamed ∧
      d.unnamed.print .sighash = d.print .sighash ∧
      d.unnamed.print .minimal = d.print .minimal := by
  rw [Declaration.parse, if_neg h] at hd
  have hread : Declaration.ofSignature (d.signature .minimal) = .ok d.unnamed :=
    Declaration.ofSignature_signature_shown (.inl rfl) hd
  exact ⟨_, rfl, Declaration.parse_of_ofSignature hread, d.print_rename (.inl rfl),
    d.print_rename (.inr rfl)⟩

theorem minimal_text_read_back_unnamed_nested :
    let pair (a : Option Identifier) : Ty :=
      .tuple [⟨a, none, .array (.tuple []) none⟩, ⟨none, none, .elementary .bool⟩]
    let d : Declaration := .event ⟨"E", by decide⟩
      [⟨some ⟨"b", by decide⟩, some true, .array (pair (some ⟨"a", by decide⟩)) (some 2)⟩,
        ⟨some ⟨"c", by decide⟩, some false, .elementary (.int 31)⟩] true
    Declaration.parse "event E((tuple()[] a,bool)[2] indexed b, int c)anonymous" = .ok d ∧
      Declaration.parse "event E(tuple(tuple()[],bool)[2] indexed,int256) anonymous" =
        .ok (.event ⟨"E", by decide⟩ [⟨none, some true, .array (pair none) (some 2)⟩,
          ⟨none, some false, .elementary (.int 31)⟩] true) := by
  intro pair d
  have hd : Declaration.parse "event E((tuple()[] a,bool)[2] indexed b, int c)anonymous" = .ok d :=
    eq_ok_of_toOption (by decide +kernel)
  have htext : d.print .minimal =
      .ok "event E(tuple(tuple()[],bool)[2] indexed,int256) anonymous" :=
    eq_ok_of_toOption (by decide +kernel)
  obtain ⟨printed, hprinted, hread, -⟩ := minimal_text_read_back_unnamed _ (by decide) d hd
  obtain rfl := Except.ok.inj (htext.symm.trans hprinted)
  exact ⟨hd, hread⟩

end ContractAbi
