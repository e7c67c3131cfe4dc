import ContractAbi.Proofs.Names

/-!
Documents of one signature a line. What is printed of a declaration is one line of plain characters,
so a document is read back from its lines, whether they are joined or not.
-/

namespace ContractAbi

namespace Text

/-- Printable, and in ASCII. -/
def isPlain (c : Char) : Bool := ' ' ≤ c && c ≤ '~'

def Plain (text : String) : Prop := ∀ c ∈ text.toList, isPlain c = true

instance (text : String) : Decidable (Plain text) :=
  decidable_of_iff (text.toList.all isPlain = true) List.all_eq_true

theorem isPlain_of_isWordChar {c : Char} (h : isWordChar c = true) : isPlain c = true := by
  obtain ⟨hl, hu⟩ := toNat_of_isWordChar h
  simp only [isPlain, Bool.and_eq_true, decide_eq_true_eq]
  exact ⟨UInt32.le_iff_toNat_le.mpr (Nat.le_of_lt hl), UInt32.le_iff_toNat_le.mpr hu⟩

namespace Plain

variable {s t : String}

theorem append (hs : Plain s) (ht : Plain t) : Plain (s ++ t) := by
  rw [Plain, String.toList_append]
  exact List.forall_mem_append.mpr ⟨hs, ht⟩

theorem intercalate {separator : String} {texts : List String} (hs : Plain separator)
    (h : ∀ text ∈ texts, Plain text) : Plain (separator.intercalate texts) :=
  forall_mem_intercalate hs h

theorem of_word (h : ∀ c ∈ s.toList, isWordChar c = true) : Plain s :=
  fun c hc => isPlain_of_isWordChar (h c hc)

theorem repr (n : Nat) : Plain n.repr := by
  obtain ⟨-, hd, -⟩ := decimal?_eq_some.mp (decimal?_repr n)
  exact of_word fun c hc => isWordChar_of_isDigit (hd c hc)

theorem identifier (name : Identifier) : Plain name.text :=
  of_word (word_chars name.valid).2

theorem elementary (type : Elementary) : Plain type.text :=
  of_word fun _ hc => type.isWordChar_of_mem_text hc

theorem arraySuffix (length : Option UInt64) : Plain (arraySuffix length) := by
  cases length with
  | none => decide
  | some n => exact (append (by decide) (repr n.toNat)).append (by decide)

theorem no_break (h : Plain s) : ∀ c ∈ s.toList, c ≠ '\n' ∧ c ≠ '\r' := by
  intro c hc
  have hplain := h c hc
  constructor
  · rintro rfl
    exact absurd hplain (by decide)
  · rintro rfl
    exact absurd hplain (by decide)

end Plain

section Lines

variable {line rest : List Char}

theorem lines_append_break (h : ∀ c ∈ line, c ≠ '\n' ∧ c ≠ '\r') :
    lines (line ++ '\n' :: rest) = line :: lines rest := by
  induction line with
  | nil => rfl
  | cons c line ih =>
    obtain ⟨hc, hline⟩ := List.forall_mem_cons.mp h
    rw [List.cons_append, lines, ih hline]
    · exact hc.1
    · exact fun _ hr => absurd hr hc.2

theorem lines_single (h : ∀ c ∈ line, c ≠ '\n' ∧ c ≠ '\r') (hne : line ≠ []) :
    lines line = [line] := by
  induction line with
  | nil => exact absurd rfl hne
  | cons c line ih =>
    obtain ⟨hc, hline⟩ := List.forall_mem_cons.mp h
    rw [lines]
    · cases line with
      | nil => rfl
      | cons d line => rw [ih hline (List.cons_ne_nil _ _)]
    · exact hc.1
    · exact fun _ hr => absurd hr hc.2

end Lines

end Text

open Text (Plain)

theorem Style.plain_label (style : Style) (name : Option Identifier) (indexed : Option Bool) :
    Plain (style.label name indexed) := by
  have hflag : Plain (if indexed = some true then " indexed" else "") := by
    split <;> decide
  cases style with
  | sighash => exact (by decide : Plain "")
  | minimal | json => exact hflag
  | full =>
    cases name with
    | none => exact hflag
    | some name => exact (hflag.append (by decide)).append (.identifier name)

theorem Style.plain_tupleWord (style : Style) : Plain style.tupleWord := by
  cases style <;> decide

theorem Style.plain_separator (style : Style) : Plain style.separator := by
  cases style <;> decide

mutual

theorem Ty.plain_signature (style : Style) : (type : Ty) → Plain (type.signature style)
  | .elementary e => .elementary e
  | .tuple components =>
    ((style.plain_tupleWord.append (by decide)).append
      (style.plain_separator.intercalate (Param.plain_signatures style components))).append
        (by decide)
  | .array element length => (element.plain_signature style).append (.arraySuffix length)

theorem Param.plain_signatures (style : Style) :
    (ps : List Param) → ∀ text ∈ Param.signatures style ps, Plain text
  | [] => nofun
  | ⟨name, indexed, type⟩ :: rest =>
    List.forall_mem_cons.mpr ⟨(type.plain_signature style).append (style.plain_label name indexed),
      Param.plain_signatures style rest⟩

end

theorem Param.plain_printList_full (ps : List Param) : Plain (Param.printList .full ps) := by
  rw [Param.printList_eq (.inr rfl), ← Param.signatures_eq]
  exact (Plain.append (by decide)
    (.intercalate (by decide) (Param.plain_signatures .full ps))).append (by decide)

namespace Declaration

theorem plain_word (d : Declaration) : Plain d.word := by
  have hall : ∀ w ∈ Keyword.declarations, Plain w := by decide
  exact hall d.word d.word_mem

theorem plain_gasWords (gas : Option Nat) : ∀ w ∈ gasWords gas, Plain w := by
  cases gas with
  | none => exact nofun
  | some n => exact List.forall_mem_singleton.mpr (Plain.append (by decide) (.repr n))

theorem plain_payableWords (payable : Bool) : ∀ w ∈ payableWords payable, Plain w := by
  cases payable <;> decide

theorem plain_tailWords (d : Declaration) : ∀ w ∈ d.tailWords .full, Plain w := by
  cases d with
  | constructor inputs payable gas =>
    exact List.forall_mem_append.mpr ⟨plain_payableWords payable, plain_gasWords gas⟩
  | event name inputs anonymous =>
    have ha : ∀ w ∈ if anonymous then ["anonymous"] else [], Plain w := by
      cases anonymous <;> decide
    exact ha
  | function name mutability inputs outputs gas =>
    have hm : ∀ w ∈ if mutability = .nonpayable then [] else [mutability.name], Plain w := by
      cases mutability <;> decide
    have ho : ∀ w ∈ if outputs.isEmpty then [] else ["returns", Param.printList .full outputs],
        Plain w := by
      split
      · exact nofun
      · exact List.forall_mem_cons.mpr
          ⟨by decide, List.forall_mem_singleton.mpr (Param.plain_printList_full outputs)⟩
    exact List.forall_mem_append.mpr ⟨List.forall_mem_append.mpr ⟨hm, ho⟩, plain_gasWords gas⟩
  | fallback payable => exact plain_payableWords payable
  | receive => exact plain_payableWords true
  | error | struct => exact nofun

/-- A signature is one line of plain characters. -/
theorem plain_signature_full (d : Declaration) : Plain (d.signature .full) := by
  refine .intercalate (by decide) (List.forall_mem_append.mpr ⟨?_, d.plain_tailWords⟩)
  cases d with
  | error name inputs | event name inputs | function name _ inputs | struct name inputs =>
    exact List.forall_mem_cons.mpr ⟨plain_word _, List.forall_mem_singleton.mpr
      (.append (.identifier name) (Param.plain_printList_full inputs))⟩
  | constructor inputs payable gas =>
    exact List.forall_mem_singleton.mpr
      (.append (plain_word _) (Param.plain_printList_full inputs))
  | fallback | receive =>
    exact List.forall_mem_singleton.mpr (.append (plain_word _) (by decide))

end Declaration

namespace Interface

theorem lines_joined {texts : List String} (h : ∀ text ∈ texts, Plain text ∧ text ≠ "") :
    lines ("\n".intercalate texts) = texts := by
  induction texts with
  | nil => rfl
  | cons text texts ih =>
    obtain ⟨⟨hplain, hne⟩, hrest⟩ := List.forall_mem_cons.mp h
    by_cases hlast : texts = []
    · rw [hlast, String.intercalate_singleton, lines,
        Text.lines_single hplain.no_break (by simpa using hne)]
      exact congrArg (fun s => [s]) String.ofList_toList
    · rw [String.intercalate_cons_of_ne_nil hlast, lines, String.toList_append,
        String.toList_append, List.append_assoc]
      change (Text.lines (text.toList ++ '\n' :: ("\n".intercalate texts).toList)).map _ = _
      rw [Text.lines_append_break hplain.no_break, List.map_cons, String.ofList_toList]
      exact congrArg (text :: ·) (ih hrest)

/-- Nothing is wrong with printing, whatever the declarations are. -/
theorem exists_print (style : Style) (i : Interface) : ∃ printed, i.print style = .ok printed := by
  apply exists_mapM_eq_ok_iff.mpr
  intro d hd
  cases style with
  | sighash =>
    rw [if_pos rfl, List.mem_filter] at hd
    obtain ⟨name, hn⟩ := Option.isSome_iff_exists.mp hd.2
    exact ⟨_, Declaration.print_sighash hn⟩
  | minimal | full | json => exact ⟨_, rfl⟩

theorem isSome_name?_eq (d : Declaration) :
    d.name?.isSome = decide (d.kind ≠ .constructor ∧ d.kind ≠ .fallback) := by
  cases d <;> rfl

theorem forall₂_of_print_sighash {i : Interface} {sighashes : List String}
    (h : i.print .sighash = .ok sighashes) :
    List.Forall₂ (fun d text => d.sighash = .ok text)
      (i.declarations.filter fun d => d.kind ≠ .constructor ∧ d.kind ≠ .fallback) sighashes := by
  have hfilter : i.declarations.filter (·.name?.isSome) =
      i.declarations.filter fun d => d.kind ≠ .constructor ∧ d.kind ≠ .fallback :=
    List.filter_congr fun d _ => isSome_name?_eq d
  rw [print, if_pos rfl, hfilter] at h
  exact mapM_eq_ok_iff.mp h

/-- What lines of signatures are read as is read again from what is printed of it. -/
theorem ofLines_signatures {texts : List String} {i : Interface}
    (hs : ∀ text ∈ texts, (Text.trimStart text.toList).head? ≠ some '\x7b')
    (h : ofLines texts = .ok i) :
    ofLines (i.declarations.map (Declaration.signature .full)) = .ok i := by
  rw [ofLines_signatures_iff]
  refine forall_of_mapM_eq_ok (ofLines_eq_ok_iff.mp h) fun text ht d hd => ?_
  rw [Declaration.parse, if_neg (hs text (List.mem_of_mem_filter ht))] at hd
  exact Declaration.parse_of_ofSignature (Declaration.ofSignature_signature hd)

theorem parse_joined_signatures (ds : List Declaration) :
    parse ("\n".intercalate (ds.map (Declaration.signature .full))) =
      ofLines (ds.map (Declaration.signature .full)) := by
  have hlines : ∀ text ∈ ds.map (Declaration.signature .full), Plain text ∧ text ≠ "" := by
    intro text ht
    obtain ⟨d, -, rfl⟩ := List.mem_map.mp ht
    refine ⟨d.plain_signature_full, fun hempty => ?_⟩
    obtain ⟨c, rest, hs, -⟩ := d.exists_signature_cons .full
    rw [hempty] at hs
    cases hs
  have hhead : (Text.trimStart ("\n".intercalate (ds.map (Declaration.signature .full))).toList).head?
      ≠ some '[' := by
    cases ds with
    | nil => decide
    | cons d ds =>
      obtain ⟨c, rest, hs, hc⟩ := d.exists_signature_cons .full
      obtain ⟨more, hm⟩ := Declaration.exists_toList_intercalate "\n" (d.signature .full)
        (ds.map (Declaration.signature .full))
      rw [List.map_cons, hm, hs]
      exact Declaration.head?_trimStart_ne hc (by decide)
  rw [parse, if_neg hhead, lines_joined hlines]

/-- A line that is neither left out nor divided, and that is read as a signature. -/
structure SignatureLine (line : String) : Prop where
  not_blank : line.toList.all Text.isBlank = false
  plain : Plain line
  undivided : ∀ c ∈ line.toList, c ≠ '\n' ∧ c ≠ '\r'
  not_object : (Text.trimStart line.toList).head? ≠ some '\x7b'

theorem signatureLine_signature (d : Declaration) : SignatureLine (d.signature .full) where
  not_blank := d.not_blank_signature .full
  plain := d.plain_signature_full
  undivided := d.plain_signature_full.no_break
  not_object := d.head?_trimStart_signature_ne .full

end Interface

/-- Printing never fails, and leaves out of the sighashes what has none. Of a document of signatures
there is one declaration for each line that is not blank, and what is printed in full are lines from
which the same is read, joined or not. -/
theorem signature_lines_round_trip (i : Interface) :
    (∀ style, ∃ printed, i.print style = .ok printed) ∧
    (∃ sighashes, i.print .sighash = .ok sighashes ∧
      List.Forall₂ (fun d text => d.sighash = .ok text)
        (i.declarations.filter fun d => d.kind ≠ .constructor ∧ d.kind ≠ .fallback) sighashes) ∧
    ∀ text, (Text.trimStart text.toList).head? ≠ some '[' →
      (∀ line ∈ Interface.lines text, (Text.trimStart line.toList).head? ≠ some '\x7b') →
      Interface.parse text = .ok i →
        List.Forall₂ (fun line d => Declaration.parse line = .ok d)
          ((Interface.lines text).filter fun line => !line.toList.all Text.isBlank)
          i.declarations ∧
        ∃ printed, i.print .full = .ok printed ∧
          List.Forall₂ (fun d line => d.print .full = .ok line ∧ Interface.SignatureLine line)
            i.declarations printed ∧
          Interface.ofLines printed = .ok i ∧
          Interface.parse ("\n".intercalate printed) = .ok i := by
  refine ⟨fun style => i.exists_print style, ?_, fun text hbracket hbrace h => ⟨?_, ?_⟩⟩
  · obtain ⟨sighashes, hs⟩ := i.exists_print .sighash
    exact ⟨sighashes, hs, Interface.forall₂_of_print_sighash hs⟩
  · rw [Interface.parse, if_neg hbracket] at h
    exact mapM_eq_ok_iff.mp (Interface.ofLines_eq_ok_iff.mp h)
  · rw [Interface.parse, if_neg hbracket] at h
    have hback := Interface.ofLines_signatures hbrace h
    refine ⟨_, i.print_full, ?_, hback, ?_⟩
    · rw [List.forall₂_map_right_iff, List.forall₂_same]
      exact fun d _ => ⟨rfl, Interface.signatureLine_signature d⟩
    · rw [Interface.parse_joined_signatures, hback]

/-- A document with blanks where they do not matter, an overload, and a declaration twice. -/
def overloads : String :=
  "\n function f ( ()[2]a)view\r\n\t\r\nreceive()payable\n" ++
    "function f() returns (tuple()[2] memory a) @9\nfunction f(()[2] a) constant"

theorem signature_lines_round_trip_overloads :
    let a : Param := ⟨some ⟨"a", by decide⟩, none, .array (.tuple []) (some 2)⟩
    let f : Declaration := .function ⟨"f", by decide⟩ .view [a] [] none
    let i : Interface := ⟨[f, .receive, .function ⟨"f", by decide⟩ .nonpayable [] [a] (some 9), f]⟩
    (Text.trimStart overloads.toList).head? ≠ some '[' ∧
      (∀ line ∈ Interface.lines overloads,
        (Text.trimStart line.toList).head? ≠ some '\x7b') ∧
      Interface.parse overloads = .ok i ∧
      ∃ printed, i.print .full = .ok printed ∧
        Interface.parse ("\n".intercalate printed) = .ok i := by
  intro a f i
  have hbracket : (Text.trimStart overloads.toList).head? ≠ some '[' := by decide +kernel
  have hbrace : ∀ line ∈ Interface.lines overloads,
      (Text.trimStart line.toList).head? ≠ some '\x7b' := by
    decide +kernel
  have hparse : Interface.parse overloads = .ok i := eq_ok_of_toOption (by decide +kernel)
  obtain ⟨-, printed, hprint, -, -, hback⟩ :=
    (signature_lines_round_trip i).2.2 overloads hbracket hbrace hparse
  exact ⟨hbracket, hbrace, hparse, printed, hprint, hback⟩

end ContractAbi
