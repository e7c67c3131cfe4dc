import ContractAbi.Descriptor.Print
import ContractAbi.Proofs.Canonical
import ContractAbi.Proofs.Flags
import ContractAbi.Proofs.Descriptor

/-!
The text that a descriptor holds of its type, compared with what is written of the descriptor. One
is made when a descriptor is put together and the other when it is written, each from what is below.
-/

namespace ContractAbi

open Piece (Apart apart_cons apart_nil)

theorem Style.labelOf_elim (style : Style) (name : Option Identifier) (indexed : Option Bool) :
    style.labelOf (name.elim "" Identifier.text) indexed = style.label name indexed := by
  cases style with
  | full =>
    cases name with
    | none => exact String.append_empty
    | some name =>
      change _ ++ (if name.text = "" then "" else " " ++ name.text) = _ ++ " " ++ name.text
      rw [if_neg name.text_ne_empty, String.append_assoc]
  | _ => rfl

mutual

/-- A descriptor is written like the parameter that it is the descriptor of. -/
theorem Ty.signature_shape (style : Style) :
    (type : Ty) → type.shape.signature style type.text = type.signature style
  | .elementary _ => rfl
  | .tuple components => by
    rw [Ty.shape, Shape.signature, Ty.signature, Param.signatures_descriptors style components]
  | .array element length => by
    rw [Ty.shape, Shape.signature, Ty.signature, element.signature_shape style]

theorem Param.signatures_descriptors (style : Style) :
    (ps : List Param) →
      Descriptor.signatures style (Param.descriptors ps) = Param.signatures style ps
  | [] => rfl
  | ⟨name, indexed, type⟩ :: rest => by
    rw [Param.descriptors, Descriptor.signatures, Param.signatures, type.signature_shape style,
      Style.labelOf_elim, Param.signatures_descriptors style rest]

end

theorem Param.signature_descriptor (style : Style) (p : Param) :
    p.descriptor.signature style = p.signature style := by
  change p.type.shape.signature style p.type.text ++ style.labelOf p.nameText p.indexed = _
  rw [Ty.signature_shape, nameText, Style.labelOf_elim]
  rfl

namespace Text

/-- A text without a word, which is taken out from left to right; `skipped` is how much of the word
has still to be left out. -/
def without (word : List Char) (skipped : Nat) : List Char → List Char
  | [] => []
  | c :: cs =>
    match skipped with
    | skipped + 1 => without word skipped cs
    | 0 =>
      if word.isPrefixOf (c :: cs) then without word (word.length - 1) cs
      else c :: without word 0 cs

variable {word cs ds : List Char} {c : Char}

theorem without_drop (n : Nat) (cs : List Char) :
    without word n cs = without word 0 (cs.drop n) := by
  induction cs generalizing n with
  | nil => cases n <;> rfl
  | cons c cs ih =>
    cases n with
    | zero => rfl
    | succ n => exact ih n

theorem without_word (hne : word ≠ []) (cs : List Char) :
    without word 0 (word ++ cs) = without word 0 cs := by
  cases hw : word with
  | nil => exact absurd hw hne
  | cons c rest =>
    have hprefix : (c :: rest).isPrefixOf (c :: (rest ++ cs)) = true :=
      List.isPrefixOf_iff_prefix.mpr (List.prefix_append (c :: rest) cs)
    rw [List.cons_append, without]
    rw [if_pos hprefix, without_drop, List.length_cons, Nat.add_sub_cancel, List.drop_left]

/-- Where the word begins nowhere in a text, the text is kept. -/
theorem without_append (h : ∀ us vs, cs = us ++ vs → vs ≠ [] → ¬ word <+: vs ++ ds) :
    without word 0 (cs ++ ds) = cs ++ without word 0 ds := by
  induction cs with
  | nil => rfl
  | cons c cs ih =>
    have hhead := h [] (c :: cs) rfl (List.cons_ne_nil c cs)
    rw [List.cons_append] at hhead ⊢
    rw [without]
    rw [if_neg (by rwa [List.isPrefixOf_iff_prefix]), ih, List.cons_append]
    rintro us vs rfl hne
    exact h (c :: us) vs rfl hne

theorem without_of_notMem (hne : word ≠ []) (h : ∀ c ∈ cs, word.head? ≠ some c) :
    without word 0 (cs ++ ds) = cs ++ without word 0 ds := by
  apply without_append
  rintro us vs rfl hvs ⟨rest, hrest⟩
  obtain ⟨w, word, rfl⟩ := List.exists_cons_of_ne_nil hne
  obtain ⟨v, vs, rfl⟩ := List.exists_cons_of_ne_nil hvs
  exact h v (by simp) (congrArg some (List.cons.inj hrest).1)

/-- A word does not begin before a mark and go on after it. -/
theorem not_prefix_append {w : List Char} (hw : ∀ c ∈ word, isWordChar c = true)
    (hno : ¬ word <+: w) (hd : Apart ds) : ¬ word <+: w ++ ds := by
  intro h
  obtain hp | ⟨more, rfl⟩ := List.prefix_or_prefix_of_prefix h (List.prefix_append w ds)
  · exact hno hp
  · rw [List.prefix_append_right_inj] at h
    cases more with
    | nil => exact hno (by rw [List.append_nil])
    | cons c more =>
      obtain ⟨rest, rfl⟩ := h
      have hc := hd c rfl
      rw [hw c (by simp)] at hc
      cases hc

theorem without_word_append {w : List Char} (hw : ∀ c ∈ word, isWordChar c = true)
    (hno : ¬ word <:+: w) (hd : Apart ds) :
    without word 0 (w ++ ds) = w ++ without word 0 ds := by
  apply without_append
  rintro us vs rfl -
  exact not_prefix_append hw (fun h => hno (h.isInfix.trans (List.suffix_append us vs).isInfix)) hd

theorem without_intercalate {α : Type} {shown kept : α → String} {as : List α}
    (hcomma : word.head? ≠ some ',') (hne : word ≠ [])
    (h : ∀ a ∈ as, ∀ ds, Apart ds →
      without word 0 ((shown a).toList ++ ds) = (kept a).toList ++ without word 0 ds)
    (hd : Apart ds) :
    without word 0 ((",".intercalate (as.map shown)).toList ++ ds) =
      (",".intercalate (as.map kept)).toList ++ without word 0 ds := by
  induction as with
  | nil => rfl
  | cons a as ih =>
    obtain ⟨ha, has⟩ := List.forall_mem_cons.mp h
    by_cases hnil : as = []
    · subst hnil
      exact ha ds hd
    · have hcommas : ∀ c ∈ ",".toList, word.head? ≠ some c := by simpa using hcomma
      have hapart : Apart (",".toList ++ ((",".intercalate (as.map shown)).toList ++ ds)) :=
        apart_cons (by decide) _
      rw [List.map_cons, List.map_cons, String.intercalate_cons_of_ne_nil (by simpa using hnil),
        String.intercalate_cons_of_ne_nil (by simpa using hnil)]
      simp only [String.toList_append, List.append_assoc]
      rw [ha _ hapart, without_of_notMem hne hcommas, ih has]

end Text

theorem Elementary.notMem_text (type : Elementary) :
    'p' ∉ type.text.toList ∧ 'x' ∉ type.text.toList := by
  cases type with
  | fixedBytes n => revert n; decide +kernel
  | uint n => revert n; decide +kernel
  | int n => revert n; decide +kernel
  | _ => decide +kernel

/-- Taking out the word leaves the parentheses of every tuple as they are. -/
theorem Ty.without_tuple_canonical (type : Ty) : ∀ ds, Apart ds →
    Text.without "tuple".toList 0 ((type.canonical "tuple").toList ++ ds) =
      (type.canonical "").toList ++ Text.without "tuple".toList 0 ds := by
  have hne : "tuple".toList ≠ [] := by decide
  induction type using Ty.induction with
  | elementary type =>
    intro ds hd
    have hno : ¬ "tuple".toList <:+: type.text.toList :=
      fun h => type.notMem_text.1 (h.subset (by decide))
    have hword : isIdentifier "tuple" = true := by decide
    exact Text.without_word_append (word_chars hword).2 hno hd
  | array element length ih =>
    intro ds hd
    obtain ⟨rest, hrest⟩ := exists_toList_arraySuffix length
    have hdigit (c : Char) (hc : c.isDigit = true) : "tuple".toList.head? ≠ some c := by
      rintro he
      obtain rfl := Option.some.inj he
      exact absurd hc (by decide)
    have hsuffix := forall_mem_arraySuffix (by decide) (by decide) hdigit length
    have hapart : Apart ((arraySuffix length).toList ++ ds) := hrest ▸ apart_cons (by decide) _
    rw [canonical, canonical, String.toList_append, String.toList_append, List.append_assoc,
      ih _ hapart, Text.without_of_notMem hne hsuffix, List.append_assoc]
  | tuple components ih =>
    intro ds hd
    have hopen : ∀ c ∈ "(".toList, "tuple".toList.head? ≠ some c :=
      List.forall_mem_singleton.mpr (by decide)
    have hclose : ∀ c ∈ ")".toList, "tuple".toList.head? ≠ some c :=
      List.forall_mem_singleton.mpr (by decide)
    have hapart : Apart (")".toList ++ ds) := apart_cons (by decide) _
    rw [canonical, canonical, Param.canonicals_eq, Param.canonicals_eq]
    simp only [String.toList_append, List.append_assoc]
    rw [Text.without_word hne, Text.without_of_notMem hne hopen,
      Text.without_intercalate (by decide) hne ih hapart, Text.without_of_notMem hne hclose]
    rfl

/-- Neither blanks nor the letters of these words that no elementary type has. -/
theorem Ty.plain_canonical {c : Char} (type : Ty) (h : c ∈ (type.canonical "").toList) :
    Text.isBlank c = false ∧ c ≠ 'p' ∧ c ≠ 'x' := by
  have hdigit (c : Char) (hc : c.isDigit = true) :
      Text.isBlank c = false ∧ c ≠ 'p' ∧ c ≠ 'x' := by
    refine ⟨isBlank_of_isWordChar (isWordChar_of_isDigit hc), ?_, ?_⟩ <;> rintro rfl <;> cases hc
  refine forall_mem_canonical (by simp) (by decide) hdigit ?_ type c h
  intro e c hc
  refine ⟨isBlank_of_isWordChar (e.isWordChar_of_mem_text hc), ?_, ?_⟩
  · rintro rfl
    exact e.notMem_text.1 hc
  · rintro rfl
    exact e.notMem_text.2 hc

mutual

/-- A shape in which nothing has a name or a flag. -/
def Shape.erase : Shape → Shape
  | .basic => .basic
  | .tuple components => .tuple (Descriptor.eraseAll components)
  | .array ⟨_, type, _, shape⟩ length => .array ⟨"", type, none, shape.erase⟩ length

def Descriptor.eraseAll : List Descriptor → List Descriptor
  | [] => []
  | ⟨_, type, _, shape⟩ :: rest => ⟨"", type, none, shape.erase⟩ :: Descriptor.eraseAll rest

end

def Descriptor.erase (d : Descriptor) : Descriptor := ⟨"", d.type, none, d.shape.erase⟩

mutual

theorem Shape.signature_sighash_erase (type : String) :
    (shape : Shape) → shape.erase.signature .sighash type = shape.signature .sighash type
  | .basic => rfl
  | .tuple components => by
    rw [Shape.erase, Shape.signature, Shape.signature,
      Descriptor.signatures_sighash_eraseAll components]
  | .array ⟨_, type, _, shape⟩ length => by
    rw [Shape.erase, Shape.signature, Shape.signature, shape.signature_sighash_erase type]

theorem Descriptor.signatures_sighash_eraseAll :
    (ds : List Descriptor) →
      Descriptor.signatures .sighash (Descriptor.eraseAll ds) = Descriptor.signatures .sighash ds
  | [] => rfl
  | ⟨_, type, _, shape⟩ :: rest => by
    rw [Descriptor.eraseAll, Descriptor.signatures, Descriptor.signatures,
      shape.signature_sighash_erase type, Descriptor.signatures_sighash_eraseAll rest]
    rfl

end

namespace Descriptor

theorem signature_sighash_erase (d : Descriptor) :
    d.erase.signature .sighash = d.signature .sighash := by
  change d.shape.erase.signature .sighash d.type ++ "" = d.shape.signature .sighash d.type ++ ""
  rw [Shape.signature_sighash_erase]

/-- Of what there is in a tuple nothing is indexed, however deep the tuple lies. -/
def UnindexedInside (d : Descriptor) : Prop :=
  ∀ n components, d.Node n → n.shape = .tuple components → ∀ c ∈ components, c.indexed ≠ some true

/-- Whatever is read is so, as the flag of an event's input is not passed on to what is inside. -/
theorem unindexedInside_of_unflagged {p : Param} (h : p.type.Unflagged) :
    p.descriptor.UnindexedInside := by
  intro n components hn
  generalize hd : p.descriptor = d at hn
  induction hn generalizing p with
  | root d =>
    subst hd
    obtain ⟨name, indexed, type⟩ := p
    intro hs c hc
    cases type with
    | elementary | array => cases hs
    | tuple ps =>
      obtain rfl := Shape.tuple.inj hs
      rw [Param.descriptors_eq] at hc
      obtain ⟨q, hq, rfl⟩ := List.mem_map.mp hc
      change q.indexed ≠ some true
      rw [(Param.allUnflagged_iff.mp h q hq).1]
      exact nofun
  | component hs hm _ ih =>
    subst hd
    obtain ⟨name, indexed, type⟩ := p
    cases type with
    | elementary | array => cases hs
    | tuple ps =>
      obtain rfl := Shape.tuple.inj hs
      rw [Param.descriptors_eq] at hm
      obtain ⟨q, hq, rfl⟩ := List.mem_map.mp hm
      exact ih (Param.allUnflagged_iff.mp h q hq).2 rfl
  | element hs _ ih =>
    subst hd
    obtain ⟨name, indexed, type⟩ := p
    cases type with
    | elementary | tuple => cases hs
    | array t length =>
      obtain ⟨rfl, rfl⟩ := Shape.array.inj hs
      exact @ih (.ofType t) h rfl

/-- Where no flag is to be written inside, the text that is held is written. -/
theorem signature_minimal_type (type : Ty) :
    ∀ d : Descriptor, d.shape = type.shape → d.UnindexedInside →
      type.signature .minimal = type.text := by
  induction type using Ty.induction with
  | elementary type => exact fun _ _ _ => rfl
  | array element length ih =>
    intro d hd hno
    have hbelow : UnindexedInside ⟨"", element.text, none, element.shape⟩ :=
      fun n components hn => hno n components (.element hd hn)
    rw [Ty.signature, Ty.text, ih _ rfl hbelow]
  | tuple components ih =>
    intro d hd hno
    have htexts : ∀ p ∈ components, p.signature .minimal = p.type.text := by
      intro p hp
      have hmem : p.descriptor ∈ Param.descriptors components := by
        rw [Param.descriptors_eq]
        exact List.mem_map_of_mem hp
      have hbelow : p.descriptor.UnindexedInside :=
        fun n cs hn => hno n cs (.component hd hmem hn)
      have hflag : p.indexed ≠ some true := hno d _ (.root d) hd _ hmem
      rw [Param.signature, ih p hp _ rfl hbelow]
      change p.type.text ++ (if p.indexed = some true then " indexed" else "") = _
      rw [if_neg hflag, String.append_empty]
    rw [Ty.signature, Ty.text_eq, Ty.canonical, Param.signatures_eq, Param.canonicals_eq]
    have hmap : components.map (Param.signature .minimal) =
        components.map fun p => p.type.canonical "tuple" := by
      apply List.map_congr_left
      intro p hp
      rw [htexts p hp, Ty.text_eq]
    rw [hmap]
    rfl

end Descriptor

/-- The text of its type that a descriptor holds is what the styles without names write of it: all
but the word for tuples where only types count, and all of it where no flag comes in between. -/
theorem stored_text_written {d : Descriptor} (hd : d.Reachable) :
    (d.signature .sighash).toList = Text.without "tuple".toList 0 d.type.toList ∧
    (∀ c ∈ (d.signature .sighash).toList, Text.isBlank c = false) ∧
    ¬ "tuple".toList <:+: (d.signature .sighash).toList ∧
    ¬ "indexed".toList <:+: (d.signature .sighash).toList ∧
    (∀ e : Descriptor, e.erase = d.erase → e.signature .sighash = d.signature .sighash) ∧
    (d.UnindexedInside →
      d.signature .minimal = d.type ++ if d.indexed = some true then " indexed" else "") := by
  obtain ⟨p, rfl⟩ := Descriptor.exists_param_of_reachable hd
  have hsighash : p.descriptor.signature .sighash = p.type.canonical "" := by
    rw [Param.signature_descriptor]
    exact p.print_sighash
  have hwithout := p.type.without_tuple_canonical [] apart_nil
  rw [List.append_nil, ← Ty.text_eq] at hwithout
  rw [hsighash]
  refine ⟨?_, ?_, ?_, ?_, ?_, ?_⟩
  · change _ = Text.without "tuple".toList 0 p.type.text.toList
    rw [hwithout]
    exact (List.append_nil _).symm
  · exact fun c hc => (p.type.plain_canonical hc).1
  · exact fun h => (p.type.plain_canonical (h.subset (by decide : 'p' ∈ "tuple".toList))).2.1 rfl
  · exact fun h => (p.type.plain_canonical (h.subset (by decide : 'x' ∈ "indexed".toList))).2.2 rfl
  · intro e he
    rw [← e.signature_sighash_erase, he, Descriptor.signature_sighash_erase, hsighash]
  · intro hno
    rw [Param.signature_descriptor, Param.signature,
      Descriptor.signature_minimal_type p.type p.descriptor rfl hno]
    rfl

theorem stored_text_written_nested :
    ∃ d, Descriptor.parse true "tuple(uint a, tuple(address b)[] c)[3] indexed e" = .ok d ∧
      d.type = "tuple(uint256,tuple(address)[])[3]" ∧
      Text.without "tuple".toList 0 d.type.toList = "(uint256,(address)[])[3]".toList ∧
      d.signature .sighash = "(uint256,(address)[])[3]" ∧
      d.signature .minimal = "tuple(uint256,tuple(address)[])[3] indexed" := by
  let inner := Ty.tuple [⟨some ⟨"b", by decide⟩, none, .elementary .address⟩]
  let p : Param := ⟨some ⟨"e", by decide⟩, some true, .array (.tuple
    [⟨some ⟨"a", by decide⟩, none, .elementary (.uint 31)⟩,
      ⟨some ⟨"c", by decide⟩, none, .array inner none⟩]) (some 3)⟩
  have hparse : Param.parse true "tuple(uint a, tuple(address b)[] c)[3] indexed e" = .ok p :=
    eq_ok_of_toOption (by decide +kernel)
  have hd : Descriptor.parse true "tuple(uint a, tuple(address b)[] c)[3] indexed e" =
      .ok p.descriptor := by
    rw [Descriptor.parse_eq, hparse]
    rfl
  have htype : p.descriptor.type = "tuple(uint256,tuple(address)[])[3]" := by decide +kernel
  have hwithout : Text.without "tuple".toList 0 p.descriptor.type.toList =
      "(uint256,(address)[])[3]".toList := by decide +kernel
  obtain ⟨hsighash, -, -, -, -, hminimal⟩ := stored_text_written (.parse hd)
  have hinside : p.descriptor.UnindexedInside :=
    Descriptor.unindexedInside_of_unflagged ⟨rfl, trivial, rfl, ⟨rfl, trivial, trivial⟩, trivial⟩
  refine ⟨p.descriptor, hd, htype, hwithout, ?_, ?_⟩
  · exact String.toList_inj.mp (hsighash.trans hwithout)
  · rw [hminimal hinside, htype]
    rfl

end ContractAbi
