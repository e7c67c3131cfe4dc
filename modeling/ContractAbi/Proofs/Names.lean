import ContractAbi.Interface
import ContractAbi.Proofs.Canonical
import ContractAbi.Proofs.Flags

/-!
The names in an interface. A document may give any identifier as a name, but from a signature only
those are read as names which are neither keywords nor have the shape of an elementary type.
-/

namespace ContractAbi

/-- Not taken by a keyword or by the shape of a type. -/
def Identifier.Free (name : Identifier) : Prop :=
  isKeyword name.text = false ∧ Elementary.shape? name.text = none

instance (name : Identifier) : Decidable name.Free :=
  inferInstanceAs (Decidable (isKeyword name.text = false ∧ Elementary.shape? name.text = none))

theorem Identifier.free_iff {name : Identifier} :
    name.Free ↔ Lexeme.kindOfWord name.text = .identifier := by
  rw [Free, Lexeme.kindOfWord]
  cases isKeyword name.text <;> cases Elementary.shape? name.text <;> simp

mutual

/-- The names of a type's components, however deep. -/
def Ty.names : Ty → List Identifier
  | .elementary _ => []
  | .tuple components => Param.names components
  | .array element _ => element.names

def Param.names : List Param → List Identifier
  | [] => []
  | ⟨name, _, type⟩ :: rest => name.toList ++ type.names ++ Param.names rest

end

def Declaration.names (d : Declaration) : List Identifier :=
  d.name?.toList ++ Param.names (d.inputs ++ d.outputs)

theorem Param.mem_names {name : Identifier} {ps : List Param} :
    name ∈ Param.names ps ↔ ∃ p ∈ ps, p.name = some name ∨ name ∈ p.type.names := by
  induction ps with
  | nil => simp [Param.names]
  | cons p rest ih =>
    obtain ⟨found, indexed, type⟩ := p
    simp [Param.names, ih, or_assoc]

theorem Declaration.mem_names {name : Identifier} {d : Declaration} :
    name ∈ d.names ↔
      d.name? = some name ∨ name ∈ Param.names d.inputs ∨ name ∈ Param.names d.outputs := by
  simp only [names, List.mem_append, Option.mem_toList, Param.mem_names, or_and_right, exists_or]

theorem Ty.names_foldl (lengths : List (Option UInt64)) (type : Ty) :
    (lengths.foldl Ty.array type).names = type.names := by
  induction lengths generalizing type with
  | nil => rfl
  | cons length rest ih => exact ih (.array type length)

namespace Grammar

mutual

/-- A parameter's names stand as identifiers among the symbols from which it is derived. -/
theorem Parameter.identifier_mem {indexable : Bool} {ts : List Symbol} {p : Param} :
    Parameter indexable ts p → ∀ name, p.name = some name ∨ name ∈ p.type.names →
      .identifier name.text ∈ ts
  | .mk lengths head _ named, name, h => by
    rcases h with h | h
    · cases named with
      | unnamed => cases h
      | named found =>
        obtain rfl := Option.some.inj h
        simp
    · have hhead := head.identifier_mem name (Ty.names_foldl lengths _ ▸ h)
      simp [hhead]

theorem Head.identifier_mem {ts : List Symbol} {type : Ty} :
    Head ts type → ∀ name ∈ type.names, .identifier name.text ∈ ts
  | .elementary _, _, h => nomatch h
  | .tuple group, name, h => group.identifier_mem name h
  | .wordedTuple group, name, h => List.mem_cons_of_mem _ (group.identifier_mem name h)

theorem Group.identifier_mem {indexable : Bool} {ts : List Symbol} {ps : List Param} :
    Group indexable ts ps → ∀ name ∈ Param.names ps, .identifier name.text ∈ ts
  | .empty, _, h => nomatch h
  | .list parameters, name, h => by simp [parameters.identifier_mem name h]

theorem Parameters.identifier_mem {indexable : Bool} {ts : List Symbol} {ps : List Param} :
    Parameters indexable ts ps → ∀ name ∈ Param.names ps, .identifier name.text ∈ ts
  | .one parameter, name, h => by
    have hfirst := parameter.identifier_mem name
    obtain ⟨q, hq, hn⟩ := Param.mem_names.mp h
    obtain rfl := List.mem_singleton.mp hq
    exact hfirst hn
  | .cons parameter parameters, name, h => by
    have hfirst := parameter.identifier_mem name
    have hrest := parameters.identifier_mem name
    obtain ⟨q, hq, hn⟩ := Param.mem_names.mp h
    obtain rfl | hq := List.mem_cons.mp hq
    · exact List.mem_append_left _ (hfirst hn)
    · have hmem := hrest (Param.mem_names.mpr ⟨q, hq, hn⟩)
      exact List.mem_append_right _ (List.mem_cons_of_mem _ hmem)

end

theorem Gas.spellable {gs : List Symbol} {gas : Option Nat} (h : Gas gs gas) : Spellable gs := by
  cases h <;> simp [Spellable]

theorem spellable_keywords (words : List String) : Spellable (words.map .keyword) := by
  simp [Spellable]

theorem Visibility.spellable {vs : List Symbol} {m : Mutability} (h : Visibility vs m) :
    Spellable vs := by
  obtain ⟨_, -, -⟩ := h
  exact spellable_keywords _

theorem spellable_brackets (lengths : List (Option UInt64)) :
    Spellable (lengths.map .bracket) := by
  simp [Spellable]

theorem Spellable.append {ts us : List Symbol} (ht : Spellable ts) (hu : Spellable us) :
    Spellable (ts ++ us) := fun w hw => (List.mem_append.mp hw).elim (ht w) (hu w)

theorem Spellable.cons {s : Symbol} {ts : List Symbol}
    (hs : ∀ w, s = .identifier w → Lexeme.kindOfWord w = .identifier) (ht : Spellable ts) :
    Spellable (s :: ts) := fun w hw => (List.mem_cons.mp hw).elim (hs w ∘ Eq.symm) (ht w)

theorem exists_modifiers (indexed : Option Bool) :
    ∃ ms, Modifiers indexed.isSome ms indexed ∧ Spellable ms := by
  cases indexed with
  | none =>
    have hm : Modifiers false ([].map .keyword) none := .mk ⟨by simp, .nil⟩ (by simp)
    exact ⟨_, hm, spellable_keywords _⟩
  | some b =>
    cases b with
    | false =>
      have hm : Modifiers true ([].map .keyword) (some (decide ("indexed" ∈ []))) :=
        .mk ⟨by simp, .nil⟩ (by simp)
      exact ⟨_, hm, spellable_keywords _⟩
    | true =>
      have hm : Modifiers true (["indexed"].map .keyword)
          (some (decide ("indexed" ∈ ["indexed"]))) := .mk ⟨by simp, by simp⟩ (by simp)
      exact ⟨_, hm, spellable_keywords _⟩

theorem exists_name (name : Option Identifier) (h : ∀ n, name = some n → n.Free) :
    ∃ ns, Name ns name ∧ Spellable ns := by
  cases name with
  | none => exact ⟨[], .unnamed, by simp [Spellable]⟩
  | some n =>
    refine ⟨_, .named n, ?_⟩
    have hn := Identifier.free_iff.mp (h n rfl)
    simpa [Spellable] using hn

/-- A type that symbols can stand for whose words are read as they are meant. -/
def Expressible (type : Ty) : Prop :=
  ∃ (hs : List Symbol) (base : Ty) (lengths : List (Option UInt64)),
    Head hs base ∧ Spellable hs ∧ type = lengths.foldl Ty.array base

theorem exists_parameter {p : Param} (htype : Expressible p.type)
    (hname : ∀ n, p.name = some n → n.Free) :
    ∃ ts, Parameter p.indexed.isSome ts p ∧ Spellable ts := by
  obtain ⟨name, indexed, type⟩ := p
  obtain ⟨hs, base, lengths, hhead, hspell, rfl⟩ := htype
  obtain ⟨ms, hm, hms⟩ := exists_modifiers indexed
  obtain ⟨ns, hn, hns⟩ := exists_name name hname
  exact ⟨_, .mk lengths hhead hm hn,
    ((hspell.append (spellable_brackets lengths)).append hms).append hns⟩

theorem exists_parameters {indexable : Bool} {ps : List Param}
    (h : ∀ p ∈ ps, ∃ ts, Parameter indexable ts p ∧ Spellable ts) :
    ps = [] ∨ ∃ ts, Parameters indexable ts ps ∧ Spellable ts := by
  induction ps with
  | nil => exact .inl rfl
  | cons p rest ih =>
    rw [List.forall_mem_cons] at h
    obtain ⟨ts, hp, hts⟩ := h.1
    obtain rfl | ⟨us, hrest, hus⟩ := ih h.2
    · exact .inr ⟨ts, .one hp, hts⟩
    · exact .inr ⟨_, .cons hp hrest, hts.append (.cons nofun hus)⟩

theorem exists_group {indexable : Bool} {ps : List Param}
    (hi : ∀ p ∈ ps, p.indexed.isSome = indexable) (htypes : ∀ p ∈ ps, Expressible p.type)
    (hf : ∀ name ∈ Param.names ps, name.Free) : ∃ ts, Group indexable ts ps ∧ Spellable ts := by
  have hps : ∀ p ∈ ps, ∃ ts, Parameter indexable ts p ∧ Spellable ts := fun p hp =>
    hi p hp ▸ exists_parameter (htypes p hp) fun name hn =>
      hf name (Param.mem_names.mpr ⟨p, hp, .inl hn⟩)
  obtain rfl | ⟨ts, hparameters, hts⟩ := exists_parameters hps
  · exact ⟨_, .empty, by simp [Spellable]⟩
  · exact ⟨_, .list hparameters, .append (.cons nofun hts) (by simp [Spellable])⟩

/-- A type without flags inside can be spelled, if none of the names in it is taken. -/
theorem expressible_of_free (type : Ty) (hu : type.Unflagged)
    (hf : ∀ name ∈ type.names, name.Free) : Expressible type := by
  induction type using Ty.induction with
  | elementary e => exact ⟨_, _, [], .elementary e.ofString_text, by simp [Spellable], rfl⟩
  | array element length ih =>
    obtain ⟨hs, base, lengths, hhead, hspell, htype⟩ := ih hu hf
    refine ⟨hs, base, lengths ++ [length], hhead, hspell, ?_⟩
    rw [List.foldl_append, ← htype]
    rfl
  | tuple components ih =>
    have hu := Param.allUnflagged_iff.mp hu
    have hi : ∀ p ∈ components, p.indexed.isSome = false := fun p hp => by rw [(hu p hp).1]; rfl
    have htypes : ∀ p ∈ components, Expressible p.type := fun p hp =>
      ih p hp (hu p hp).2 fun name hn => hf name (Param.mem_names.mpr ⟨p, hp, .inr hn⟩)
    obtain ⟨ts, hgroup, hspell⟩ := exists_group hi htypes hf
    exact ⟨ts, _, [], .tuple hgroup, hspell, rfl⟩

theorem exists_group_of_free {indexable : Bool} {ps : List Param}
    (hi : ∀ p ∈ ps, p.indexed.isSome = indexable) (hu : ∀ p ∈ ps, p.type.Unflagged)
    (hf : ∀ name ∈ Param.names ps, name.Free) : ∃ ts, Group indexable ts ps ∧ Spellable ts :=
  exists_group hi
    (fun p hp => expressible_of_free p.type (hu p hp) fun name hn =>
      hf name (Param.mem_names.mpr ⟨p, hp, .inr hn⟩)) hf

theorem exists_visibility (m : Mutability) : ∃ vs, Visibility vs m ∧ Spellable vs := by
  obtain ⟨vs, hv, -⟩ := visibility_spelled m
  exact ⟨vs, hv, hv.spellable⟩

theorem exists_gas (gas : Option Nat) : ∃ gs, Gas gs gas ∧ Spellable gs := by
  obtain ⟨gs, hg, -⟩ := gas_spelled gas
  exact ⟨gs, hg, hg.spellable⟩

theorem Spellable.named {w : String} {name : Identifier} {ts : List Symbol} (hn : name.Free)
    (h : Spellable ts) : Spellable (.keyword w :: .identifier name.text :: ts) :=
  .cons nofun (.cons (fun _ hw => Symbol.identifier.inj hw ▸ Identifier.free_iff.mp hn) h)

/-- A declaration that was constructed of parameters without flags inside is derived from symbols,
if none of its names is taken. -/
theorem exists_declares {d : Declaration} (hd : d.Constructed)
    (hu : ∀ p ∈ d.inputs ++ d.outputs, p.type.Unflagged) (hf : ∀ name ∈ d.names, name.Free) :
    ∃ ts, Declares ts d ∧ Spellable ts := by
  obtain ⟨hi, ho⟩ := hd.indexed
  have hname (name : Identifier) (hn : d.name? = some name) : name.Free :=
    hf name (Declaration.mem_names.mpr (.inl hn))
  obtain ⟨is, hgroup, his⟩ : ∃ is, Group (d.kind == .event) is d.inputs ∧ Spellable is :=
    exists_group_of_free hi (fun p hp => hu p (List.mem_append_left _ hp))
      fun name hn => hf name (Declaration.mem_names.mpr (.inr (.inl hn)))
  obtain ⟨os, hreturns, hos⟩ : ∃ os, Group false os d.outputs ∧ Spellable os :=
    exists_group_of_free ho (fun p hp => hu p (List.mem_append_right _ hp))
      fun name hn => hf name (Declaration.mem_names.mpr (.inr (.inr hn)))
  cases d with
  | constructor inputs payable gas =>
    obtain ⟨words, hwords, rfl, -⟩ := payable_spelled payable
    obtain ⟨gs, hg, hgs⟩ := exists_gas gas
    exact ⟨_, .constructor hgroup hwords hg,
      .append (.append (.cons nofun his) (spellable_keywords words)) hgs⟩
  | error name inputs => exact ⟨_, .error name hgroup, .named (hname name rfl) his⟩
  | event name inputs anonymous =>
    refine ⟨_, .event name anonymous hgroup, .append (.named (hname name rfl) his) ?_⟩
    cases anonymous <;> simp [Spellable]
  | fallback payable =>
    obtain ⟨vs, hv, hvs⟩ := exists_visibility (if payable then .payable else .nonpayable)
    exact ⟨_, .fallback payable .empty (.inl rfl) hv .omitted (.inl rfl),
      .append (.append (.cons nofun (by simp [Spellable])) hvs) (by simp [Spellable])⟩
  | receive =>
    obtain ⟨vs, hv, hvs⟩ := exists_visibility .payable
    exact ⟨_, .receive hv, .cons nofun (.cons nofun (.cons nofun hvs))⟩
  | function name mutability inputs outputs gas =>
    obtain ⟨vs, hv, hvs⟩ := exists_visibility mutability
    obtain ⟨gs, hg, hgs⟩ := exists_gas gas
    exact ⟨_, .function name hgroup hv (.stated hreturns) hg,
      .append (.append (.append (.named (hname name rfl) his) hvs) (.cons nofun hos)) hgs⟩
  | struct name inputs => exact ⟨_, .struct name hgroup, .named (hname name rfl) his⟩

theorem Returns.identifier_mem {os : List Symbol} {outputs : List Param} (h : Returns os outputs) :
    ∀ name ∈ Param.names outputs, .identifier name.text ∈ os := by
  cases h with
  | omitted => nofun
  | stated group => exact fun name hn => List.mem_cons_of_mem _ (group.identifier_mem name hn)

/-- The names of a declaration stand as identifiers among its symbols. -/
theorem Declares.identifier_mem {ts : List Symbol} {d : Declaration} (h : Declares ts d)
    {name : Identifier} (hn : name ∈ d.names) : .identifier name.text ∈ ts := by
  rw [Declaration.mem_names] at hn
  cases h with
  | constructor hi hw hg =>
    obtain hn | hn | hn := hn
    · cases hn
    · simp [hi.identifier_mem name hn]
    · cases hn
  | error found hi | struct found hi | event found anonymous hi =>
    obtain hn | hn | hn := hn
    · simp [Option.some.inj hn]
    · simp [hi.identifier_mem name hn]
    · cases hn
  | function found hi hv ho hg =>
    obtain hn | hn | hn := hn
    · simp [Option.some.inj hn]
    · simp [hi.identifier_mem name hn]
    · simp [ho.identifier_mem name hn]
  | fallback payable hi ht hv ho hb => obtain hn | hn | hn := hn <;> cases hn
  | receive hv => obtain hn | hn | hn := hn <;> cases hn

end Grammar

namespace Declaration

theorem exists_toList_intercalate (separator text : String) (texts : List String) :
    ∃ rest, (separator.intercalate (text :: texts)).toList = text.toList ++ rest := by
  cases texts with
  | nil => exact ⟨[], by rw [String.intercalate_singleton, List.append_nil]⟩
  | cons next texts =>
    exact ⟨_, by rw [String.intercalate_cons_cons, String.toList_append, String.toList_append,
      List.append_assoc]⟩

/-- A signature begins with the word that opens the declaration. -/
theorem exists_toList_signature (style : Style) (d : Declaration) :
    ∃ rest, (d.signature style).toList = d.word.toList ++ rest := by
  have hjoined (more : String) (texts : List String) :
      ∃ rest, (" ".intercalate ((d.word ++ more) :: texts)).toList = d.word.toList ++ rest := by
    obtain ⟨rest, hr⟩ := exists_toList_intercalate " " (d.word ++ more) texts
    exact ⟨more.toList ++ rest, by rw [hr, String.toList_append, List.append_assoc]⟩
  cases d with
  | error | event | function | struct => exact exists_toList_intercalate " " _ _
  | constructor | fallback | receive => exact hjoined _ _

theorem word_mem (d : Declaration) : d.word ∈ Keyword.declarations := by
  cases d <;> simp [word, kind, Kind.name, Keyword.declarations]

theorem exists_toList_word (d : Declaration) :
    ∃ c rest, d.word.toList = c :: rest ∧ isWordChar c = true := by
  have hall : ∀ w ∈ Keyword.declarations, w.toList.head?.any isWordChar = true := by decide
  obtain ⟨c, hhead, hc⟩ := (Option.any_eq_true ..).mp (hall d.word d.word_mem)
  obtain ⟨rest, hr⟩ := List.head?_eq_some_iff.mp hhead
  exact ⟨c, rest, hr, hc⟩

theorem exists_signature_cons (style : Style) (d : Declaration) :
    ∃ c rest, (d.signature style).toList = c :: rest ∧ isWordChar c = true := by
  obtain ⟨rest, hr⟩ := exists_toList_signature style d
  obtain ⟨c, more, hw, hc⟩ := exists_toList_word d
  exact ⟨c, more ++ rest, by rw [hr, hw, List.cons_append], hc⟩

/-- No mark stands at the front of what begins with a character of words. -/
theorem head?_trimStart_ne {c mark : Char} {rest : List Char} (hc : isWordChar c = true)
    (hm : isWordChar mark = false) : (Text.trimStart (c :: rest)).head? ≠ some mark := by
  rw [Text.trimStart, List.dropWhile_cons_of_neg (by simp [isBlank_of_isWordChar hc]),
    List.head?_cons]
  intro h
  rw [Option.some.inj h, hm] at hc
  cases hc

theorem head?_trimStart_signature_ne (style : Style) (d : Declaration) :
    (Text.trimStart (d.signature style).toList).head? ≠ some '\x7b' := by
  obtain ⟨c, rest, hs, hc⟩ := exists_signature_cons style d
  rw [hs]
  exact head?_trimStart_ne hc (by decide)

theorem parse_signature (style : Style) (d : Declaration) :
    parse (d.signature style) = ofSignature (d.signature style) := by
  rw [parse, if_neg (head?_trimStart_signature_ne style d)]

theorem not_blank_signature (style : Style) (d : Declaration) :
    (d.signature style).toList.all Text.isBlank = false := by
  obtain ⟨c, rest, hs, hc⟩ := exists_signature_cons style d
  rw [hs, List.all_cons, isBlank_of_isWordChar hc, Bool.false_and]

/-- The full signature is read back if and only if none of the names is taken. -/
theorem parse_signature_eq_ok_iff {d : Declaration} (hd : d.Constructed)
    (hu : ∀ p ∈ d.inputs ++ d.outputs, p.type.Unflagged) :
    parse (d.signature .full) = .ok d ↔ ∀ name ∈ d.names, name.Free := by
  rw [parse_signature]
  constructor
  · intro h name hn
    obtain ⟨tokens, hscan, hdeclares⟩ := ofSignature_eq_ok.mp h
    exact Identifier.free_iff.mpr
      (Token.spellable_of_scan hscan name.text (hdeclares.identifier_mem hn))
  · intro hf
    obtain ⟨ts, hdeclares, hspell⟩ := Grammar.exists_declares hd hu hf
    obtain ⟨us, hdeclares, hspell⟩ := hdeclares.spelled (.inr rfl) hspell
    obtain ⟨tokens, hscan, hts⟩ := Token.scan_of_spells hspell
    have hd' : Grammar.Declares us d := d.rename_id ▸ hdeclares
    exact ofSignature_eq_ok.mpr ⟨tokens, hscan, hts ▸ hd'⟩

end Declaration

namespace Interface

theorem print_full (i : Interface) :
    i.print .full = .ok (i.declarations.map (Declaration.signature .full)) :=
  List.mapM_pure

theorem ofLines_eq_ok_iff {texts : List String} {i : Interface} :
    ofLines texts = .ok i ↔
      (texts.filter fun text => !text.toList.all Text.isBlank).mapM Declaration.parse =
        .ok i.declarations := by
  rw [ofLines, map_eq_ok_iff]
  constructor
  · rintro ⟨ds, h, rfl⟩
    exact h
  · exact fun h => ⟨i.declarations, h, rfl⟩

/-- Of the declarations in a document one after the other is read from its signature. -/
theorem ofLines_signatures_iff (i : Interface) :
    ofLines (i.declarations.map (Declaration.signature .full)) = .ok i ↔
      ∀ d ∈ i.declarations, Declaration.parse (d.signature .full) = .ok d := by
  have hwritten : (i.declarations.map (Declaration.signature .full)).filter
      (fun text => !text.toList.all Text.isBlank) =
        i.declarations.map (Declaration.signature .full) := by
    refine List.filter_eq_self.mpr fun text ht => ?_
    obtain ⟨d, -, rfl⟩ := List.mem_map.mp ht
    rw [Declaration.not_blank_signature, Bool.not_false]
  rw [ofLines_eq_ok_iff, hwritten, mapM_eq_ok_iff, List.forall₂_map_left_iff, List.forall₂_same]

/-- What the objects of a document are read as. -/
theorem constructed_of_ofJsonText {text : String} {i : Interface} (h : ofJsonText text = .ok i) :
    ∀ d ∈ i.declarations,
      d.Constructed ∧ ∀ p ∈ d.inputs ++ d.outputs, p.type.Unflagged := by
  rw [ofJsonText] at h
  split at h
  · obtain ⟨ds, hds, rfl⟩ := map_eq_ok_iff.mp h
    refine forall_of_mapM_eq_ok hds fun o _ d ho => ⟨Declaration.constructed_of_ofObject ho, ?_⟩
    exact (Declaration.obtained_of_ofObject ho true).inside
  · cases h

end Interface

/-- An interface is read back from its full signatures if and only if none of its names is taken. -/
theorem document_read_back_iff {text : String} {i : Interface}
    (h : Interface.ofJsonText text = .ok i) :
    ∃ lines, i.print .full = .ok lines ∧
      (Interface.ofLines lines = .ok i ↔ ∀ d ∈ i.declarations, ∀ name ∈ d.names, name.Free) := by
  refine ⟨_, i.print_full, ?_⟩
  rw [Interface.ofLines_signatures_iff]
  refine forall₂_congr fun d hd => ?_
  obtain ⟨hmade, hflags⟩ := Interface.constructed_of_ofJsonText h d hd
  exact Declaration.parse_signature_eq_ok_iff hmade hflags

theorem document_read_back_iff_nested :
    let a : Param := ⟨some ⟨"a", by decide⟩, none,
      .array (.tuple [⟨some ⟨"uint_", by decide⟩, none, .elementary .bool⟩]) none⟩
    let i : Interface := ⟨[.function ⟨"f", by decide⟩ .view [a] [] none, .receive]⟩
    ∃ text lines, Interface.ofJsonText text = .ok i ∧ i.print .full = .ok lines ∧
      Interface.ofLines lines = .ok i := by
  intro a i
  have htext : Interface.ofJsonText
      ("[\x7b\"type\":\"function\",\"name\":\"f\",\"stateMutability\":\"view\",\"inputs\":[" ++
        "\x7b\"name\":\"a\",\"type\":\"tuple[]\",\"components\":[" ++
          "\x7b\"name\":\"uint_\",\"type\":\"bool\"\x7d]\x7d]\x7d," ++
        "\x7b\"type\":\"receive\",\"stateMutability\":\"payable\"\x7d]") = .ok i :=
    eq_ok_of_toOption (by decide +kernel)
  obtain ⟨lines, hprint, hback⟩ := document_read_back_iff htext
  exact ⟨_, lines, htext, hprint, hback.mpr (by decide)⟩

/-- An input that is named by a keyword is read as if it were without a name and the keyword stood
there, so that the document comes back as another one. -/
theorem exists_document_not_read_back :
    ∃ text i j lines, Interface.ofJsonText text = .ok i ∧ i.print .full = .ok lines ∧
      Interface.ofLines lines = .ok j ∧ j ≠ i := by
  refine ⟨"[\x7b\"type\":\"event\",\"name\":\"E\",\"inputs\":[" ++
      "\x7b\"name\":\"indexed\",\"type\":\"bool\"\x7d]\x7d]",
    ⟨[.event ⟨"E", by decide⟩
      [⟨some ⟨"indexed", by decide⟩, some false, .elementary .bool⟩] false]⟩,
    ⟨[.event ⟨"E", by decide⟩ [⟨none, some true, .elementary .bool⟩] false]⟩,
    ["event E(bool indexed)"], ?_, ?_, ?_, ?_⟩
  · exact eq_ok_of_toOption (by decide +kernel)
  · exact eq_ok_of_toOption (by decide +kernel)
  · exact eq_ok_of_toOption (by decide +kernel)
  · decide

end ContractAbi
