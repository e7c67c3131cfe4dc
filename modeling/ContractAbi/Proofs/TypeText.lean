import ContractAbi.Param.Object
import ContractAbi.Proofs.Spelling

/-!
Type texts of JSON. The suffixes are taken off from the back, and each adds one level of arrays to
the type that the text before it stands for.
-/

namespace ContractAbi

theorem isBlank_of_isWordChar {c : Char} (h : isWordChar c = true) : Text.isBlank c = false := by
  apply Bool.eq_false_iff.mpr
  intro hb
  rw [isWordChar_of_isBlank hb] at h
  cases h

namespace Text

variable {cs : List Char}

theorem trimStart_eq (h : ∀ c ∈ cs, isBlank c = false) : trimStart cs = cs := by
  cases cs with
  | nil => rfl
  | cons c cs =>
    have hc : isBlank c = false := h c (List.mem_cons_self ..)
    rw [trimStart, List.dropWhile_cons_of_neg (by simp [hc])]

theorem forall_mem_intercalate {P : Char → Prop} {separator : String} {texts : List String}
    (hs : ∀ c ∈ separator.toList, P c) (h : ∀ text ∈ texts, ∀ c ∈ text.toList, P c) :
    ∀ c ∈ (separator.intercalate texts).toList, P c := by
  induction texts with
  | nil => exact nofun
  | cons text texts ih =>
    obtain ⟨ht, hts⟩ := List.forall_mem_cons.mp h
    by_cases hne : texts = []
    · rw [hne, String.intercalate_singleton]
      exact ht
    · rw [String.intercalate_cons_of_ne_nil hne, String.toList_append, String.toList_append]
      exact List.forall_mem_append.mpr ⟨List.forall_mem_append.mpr ⟨ht, hs⟩, ih hts⟩

end Text

/-- What stands between the brackets of an array suffix. -/
theorem toList_arraySuffix (length : Option UInt64) :
    ∃ digits, (arraySuffix length).toList = '[' :: digits ++ [']'] ∧
      (∀ c ∈ digits, c.isDigit = true) ∧
      ∀ type, Ty.suffixLength type digits = .ok length := by
  cases length with
  | none => exact ⟨[], rfl, by simp, fun _ => rfl⟩
  | some n =>
    obtain ⟨hne, hd, -⟩ := Text.decimal?_eq_some.mp (Text.decimal?_repr n.toNat)
    refine ⟨n.toNat.repr.toList, by simp [arraySuffix], hd, ?_⟩
    intro type
    rw [Ty.suffixLength, if_neg hne, Text.word64?_repr]

theorem forall_mem_arraySuffix {P : Char → Prop} (ho : P '[') (hc : P ']')
    (hd : ∀ c, c.isDigit = true → P c) (length : Option UInt64) :
    ∀ c ∈ (arraySuffix length).toList, P c := by
  obtain ⟨digits, hs, hdigits, -⟩ := toList_arraySuffix length
  rw [hs, List.cons_append, List.forall_mem_cons, List.forall_mem_append, List.forall_mem_singleton]
  exact ⟨ho, fun c hm => hd c (hdigits c hm), hc⟩

theorem isBlank_of_mem_arraySuffix {length : Option UInt64} {c : Char}
    (h : c ∈ (arraySuffix length).toList) : Text.isBlank c = false :=
  forall_mem_arraySuffix (by decide) (by decide)
    (fun _ hd => isBlank_of_isWordChar (isWordChar_of_isDigit hd)) length c h

namespace Elementary

theorem isTupleText_of_shape? {word : String} (h : (shape? word).isSome = true) :
    Ty.isTupleText word = false := by
  apply Bool.eq_false_iff.mpr
  intro ht
  have hparen : '(' ∉ word.toList :=
    fun hm => absurd ((word_chars (isIdentifier_of_shape? h)).2 _ hm) (by decide)
  rw [Ty.isTupleText, Bool.or_eq_true, Bool.or_eq_true, List.isPrefixOf_iff_prefix,
    List.isPrefixOf_iff_prefix, beq_iff_eq] at ht
  rcases ht with (rfl | ht) | ht
  · exact absurd h (by decide)
  · exact hparen (ht.subset (by decide))
  · exact hparen (ht.subset (by decide))

end Elementary

namespace Ty

theorem splitBackward_digits {type : List Char} (digits read before : List Char)
    (hd : ∀ c ∈ digits, c.isDigit = true) :
    splitBackward (some (type, read)) (digits ++ '[' :: before) = do
      let length ← suffixLength (String.ofList type) (digits.reverse ++ read)
      let (base, lengths) ← splitBackward none before
      return (base, lengths ++ [length]) := by
  induction digits generalizing read with
  | nil =>
    rw [List.nil_append, splitBackward]
    rfl
  | cons c digits ih =>
    rw [List.forall_mem_cons] at hd
    have hc : c ≠ '[' := by
      intro he
      subst he
      exact absurd hd.1 (by decide)
    rw [List.cons_append, splitBackward]
    dsimp only
    rw [if_neg hc, ih _ hd.2, List.reverse_cons, List.append_assoc, List.singleton_append]

theorem suffixLength_eq_ok {type : String} {digits : List Char} {length : Option UInt64} :
    suffixLength type digits = .ok length ↔
      digits = [] ∧ length = none ∨
        digits ≠ [] ∧ ∃ n, Text.word64? digits = some n ∧ length = some n := by
  rw [suffixLength]
  by_cases hd : digits = []
  · simp [hd, eq_comm]
  · cases Text.word64? digits <;> simp [hd, eq_comm]

theorem isDigit_of_suffixLength {type : String} {digits : List Char} {length : Option UInt64}
    (h : suffixLength type digits = .ok length) : ∀ c ∈ digits, c.isDigit = true := by
  obtain ⟨rfl, -⟩ | ⟨-, n, hn, -⟩ := suffixLength_eq_ok.mp h
  · exact nofun
  · exact (Text.isSome_word64?_iff.mp (Option.isSome_of_eq_some hn)).2.1

/-- A text without the array suffixes at its end, and their lengths in the order in which they are
written. Blanks may stand after the text and after each of the suffixes. -/
inductive Suffixes (base : List Char) : List Char → List (Option UInt64) → Prop where
  | base (h : ∀ c, base.getLast? = some c → Text.isBlank c = false ∧ c ≠ ']') :
      Suffixes base base []
  | blank {cs : List Char} {lengths : List (Option UInt64)} {c : Char}
      (h : Suffixes base cs lengths) (hc : Text.isBlank c = true) :
      Suffixes base (cs ++ [c]) lengths
  | suffix {cs digits : List Char} {lengths : List (Option UInt64)} {length : Option UInt64}
      (h : Suffixes base cs lengths)
      (hl : ∀ type, suffixLength type digits = .ok length) :
      Suffixes base (cs ++ '[' :: digits ++ [']']) (lengths ++ [length])

variable {base cs : List Char} {lengths : List (Option UInt64)}

theorem splitBackward_of_suffixes (h : Suffixes base cs lengths) :
    splitBackward none cs.reverse = .ok (base, lengths) := by
  induction h with
  | base hl =>
    cases hr : base.reverse with
    | nil =>
      obtain rfl := List.reverse_eq_nil_iff.mp hr
      rfl
    | cons c before =>
      have hbase : base = (c :: before).reverse := by rw [← hr, List.reverse_reverse]
      obtain ⟨hb, hc⟩ := hl c (by rw [hbase, List.getLast?_reverse, List.head?_cons])
      rw [splitBackward]
      rw [if_neg (by simp [hb]), if_neg hc, hbase]
  | @blank cs lengths c _ hc ih =>
    rw [List.reverse_concat, splitBackward]
    rw [if_pos hc, ih]
  | @suffix cs digits lengths length _ hl ih =>
    have hd : ∀ c ∈ digits.reverse, c.isDigit = true :=
      fun c hc => isDigit_of_suffixLength (hl "") c (List.mem_reverse.mp hc)
    have hreverse : (cs ++ '[' :: digits ++ [']']).reverse =
        ']' :: (digits.reverse ++ '[' :: cs.reverse) := by simp
    rw [hreverse, splitBackward]
    rw [if_neg (by decide), if_pos rfl, splitBackward_digits _ _ _ hd, List.reverse_reverse,
      List.append_nil, hl, ih]
    rfl

/-- Outside of brackets and inside of them, what is taken off are suffixes. -/
theorem suffixes_of_splitBackward (rev : List Char) {split : List Char × List (Option UInt64)} :
    (splitBackward none rev = .ok split → Suffixes split.1 rev.reverse split.2) ∧
      ∀ type read, splitBackward (some (type, read)) rev = .ok split →
        ∃ cs digits lengths length, rev.reverse ++ read = cs ++ '[' :: digits ∧
          Suffixes split.1 cs lengths ∧ (∀ type, suffixLength type digits = .ok length) ∧
          split.2 = lengths ++ [length] := by
  induction rev generalizing split with
  | nil =>
    refine ⟨?_, nofun⟩
    intro h
    obtain rfl := Except.ok.inj h
    exact .base nofun
  | cons c before ih =>
    refine ⟨?_, ?_⟩
    · intro h
      rw [splitBackward] at h
      by_cases hb : Text.isBlank c = true
      · rw [if_pos hb] at h
        rw [List.reverse_cons]
        exact (ih.1 h).blank hb
      · rw [if_neg hb] at h
        by_cases hc : c = ']'
        · rw [if_pos hc] at h
          obtain ⟨cs, digits, lengths, length, hbefore, hs, hl, hsplit⟩ := ih.2 _ _ h
          rw [List.append_nil] at hbefore
          rw [List.reverse_cons, hbefore, hsplit, hc]
          exact hs.suffix hl
        · rw [if_neg hc] at h
          obtain rfl := Except.ok.inj h
          apply Suffixes.base
          intro d hd
          rw [List.getLast?_reverse, List.head?_cons] at hd
          obtain rfl := Option.some.inj hd
          exact ⟨Bool.eq_false_iff.mpr hb, hc⟩
    · intro type read h
      rw [splitBackward] at h
      dsimp only at h
      by_cases hc : c = '['
      · rw [if_pos hc] at h
        obtain ⟨length, hl, h⟩ := bind_eq_ok_iff.mp h
        obtain ⟨⟨base, lengths⟩, hsplit, h⟩ := bind_eq_ok_iff.mp h
        obtain rfl := Except.ok.inj h
        refine ⟨before.reverse, read, lengths, length, ?_, ih.1 hsplit, ?_, rfl⟩
        · rw [List.reverse_cons, List.append_assoc, hc]
          rfl
        · exact fun _ => suffixLength_eq_ok.mpr (suffixLength_eq_ok.mp hl)
      · rw [if_neg hc] at h
        rw [List.reverse_cons, List.append_assoc]
        exact ih.2 _ _ h

theorem splitBackward_trimStart (rev : List Char) :
    splitBackward none (Text.trimStart rev) = splitBackward none rev := by
  induction rev with
  | nil => rfl
  | cons c before ih =>
    by_cases hc : Text.isBlank c = true
    · rw [Text.trimStart, List.dropWhile_cons_of_pos hc, ← Text.trimStart, ih, splitBackward]
      rw [if_pos hc]
    · rw [Text.trimStart, List.dropWhile_cons_of_neg hc]

/-- Taking off array suffixes is finding out which there are. -/
theorem splitSuffixes_eq_ok {text : List Char} :
    splitSuffixes text = .ok (base, lengths) ↔ Suffixes base (Text.trimStart text) lengths := by
  rw [splitSuffixes, Text.trim, List.reverse_reverse, splitBackward_trimStart]
  constructor
  · intro h
    have hs := (suffixes_of_splitBackward _).1 h
    rwa [List.reverse_reverse] at hs
  · exact splitBackward_of_suffixes

/-- The type that a text without array suffixes stands for. -/
def headOf (base : String) (components : Option (Except Error (List Param))) : Except Error Ty := do
  let components ← if isTupleText base then components.mapM id else pure none
  ofBase base components

theorem headOf_of_tupleText {text : String} (ht : isTupleText text = true) (hne : text ≠ "tuple") :
    headOf text none = (Param.ofSignature false text).map Param.type := by
  rw [headOf, if_pos ht]
  change ofBase text none = _
  rw [ofBase, if_pos ht]
  exact if_neg hne

theorem headOf_of_not_tupleText {text : String} (ht : isTupleText text = false)
    (components : Option (Except Error (List Param))) :
    headOf text components = (Param.elementary text).map Param.type := by
  rw [headOf, if_neg (by simp [ht])]
  change ofBase text none = _
  rw [ofBase, if_neg (by simp [ht])]

theorem headOf_paren {text : String} {rest : List Char}
    (h : text.toList = '(' :: rest ∨ text.toList = "tuple".toList ++ '(' :: rest) :
    headOf text none = (Param.ofSignature false text).map Param.type := by
  have hmem : '(' ∈ text.toList := by
    rcases h with h | h <;> simp [h]
  refine headOf_of_tupleText ?_ ?_
  · rw [isTupleText, Bool.or_eq_true, Bool.or_eq_true, List.isPrefixOf_iff_prefix,
      List.isPrefixOf_iff_prefix]
    rcases h with h | h
    · exact .inr ⟨rest, h.symm⟩
    · exact .inl (.inr ⟨rest, h.symm⟩)
  · rintro rfl
    exact absurd hmem (by decide)

theorem ofText_eq (word : String) (components : Option (Except Error (List Param))) :
    ofText word components =
      (splitSuffixes word.toList).bind fun split =>
        (headOf (String.ofList split.1) components).map fun head => split.2.foldl array head := by
  unfold ofText headOf
  cases splitSuffixes word.toList with
  | error e => rfl
  | ok split =>
    simp only [bind, Except.bind]
    by_cases ht : isTupleText (String.ofList split.1) = true
    · simp only [if_pos ht]
      cases components.mapM id with
      | error e => rfl
      | ok ps =>
        cases hb : ofBase (String.ofList split.1) ps <;> simp [hb, Except.map, pure, Except.pure]
    · simp only [if_neg ht, pure, Except.pure]
      cases ofBase (String.ofList split.1) none <;> rfl

theorem ofText_eq_ok {word : String} {components : Option (Except Error (List Param))} {type : Ty} :
    ofText word components = .ok type ↔
      ∃ base lengths head, Suffixes base (Text.trimStart word.toList) lengths ∧
        headOf (String.ofList base) components = .ok head ∧ lengths.foldl array head = type := by
  rw [ofText_eq]
  constructor
  · intro h
    obtain ⟨⟨base, lengths⟩, hsplit, h⟩ := bind_eq_ok_iff.mp h
    obtain ⟨head, hhead, rfl⟩ := map_eq_ok_iff.mp h
    exact ⟨base, lengths, head, splitSuffixes_eq_ok.mp hsplit, hhead, rfl⟩
  · rintro ⟨base, lengths, head, hsplit, hhead, rfl⟩
    rw [splitSuffixes_eq_ok.mpr hsplit]
    exact map_eq_ok_iff.mpr ⟨head, hhead, rfl⟩

/-- An array suffix makes an array of the type before it. -/
theorem ofText_suffix {word : String} {components : Option (Except Error (List Param))} {type : Ty}
    (hw : ∀ c ∈ word.toList, Text.isBlank c = false) (h : ofText word components = .ok type)
    (length : Option UInt64) :
    ofText (word ++ arraySuffix length) components = .ok (.array type length) := by
  obtain ⟨digits, htext, -, hlength⟩ := toList_arraySuffix length
  obtain ⟨base, lengths, head, hs, hhead, rfl⟩ := ofText_eq_ok.mp h
  rw [Text.trimStart_eq hw] at hs
  have hall : ∀ c ∈ (word ++ arraySuffix length).toList, Text.isBlank c = false := by
    rw [String.toList_append]
    exact List.forall_mem_append.mpr ⟨hw, fun _ hc => isBlank_of_mem_arraySuffix hc⟩
  refine ofText_eq_ok.mpr ⟨base, lengths ++ [length], head, ?_, hhead, ?_⟩
  · rw [Text.trimStart_eq hall, String.toList_append, htext, ← List.append_assoc]
    exact hs.suffix hlength
  · rw [List.foldl_append]
    rfl

theorem ofText_base {word : String} {components : Option (Except Error (List Param))}
    (hw : ∀ c ∈ word.toList, Text.isBlank c = false) (hl : word.toList.getLast? ≠ some ']') :
    ofText word components = headOf word components := by
  have hbase : Suffixes word.toList (Text.trimStart word.toList) [] := by
    rw [Text.trimStart_eq hw]
    refine .base fun c hc => ⟨hw c (List.mem_of_getLast? hc), ?_⟩
    rintro rfl
    exact hl hc
  rw [ofText_eq, splitSuffixes_eq_ok.mpr hbase]
  change (headOf (String.ofList word.toList) components).map id = _
  rw [String.ofList_toList]
  cases headOf word components <;> rfl

end Ty

end ContractAbi
