import ContractAbi.Proofs.Document
import ContractAbi.Proofs.JsonText

/-!
How deep tuples may stand inside each other for JSON text to be read back. Each tuple takes two
levels of nesting, for the array of its components and for their objects; a declaration takes two
more, for itself and for the array of its parameters.
-/

namespace ContractAbi

mutual

/-- How many tuples stand inside each other. Arrays do not count. -/
def Ty.tupleDepth : Ty → Nat
  | .elementary _ => 0
  | .tuple components => Param.tupleDepth components + 1
  | .array element _ => element.tupleDepth

def Param.tupleDepth : List Param → Nat
  | [] => 0
  | ⟨_, _, type⟩ :: rest => max type.tupleDepth (Param.tupleDepth rest)

end

theorem Param.tupleDepth_append (ps qs : List Param) :
    tupleDepth (ps ++ qs) = max (tupleDepth ps) (tupleDepth qs) := by
  induction ps with
  | nil => exact (Nat.zero_max _).symm
  | cons p ps ih =>
    obtain ⟨name, indexed, type⟩ := p
    rw [List.cons_append, tupleDepth, tupleDepth, ih, Nat.max_assoc]

/-- The depth of inputs and outputs. -/
def Declaration.tupleDepth (d : Declaration) : Nat := Param.tupleDepth (d.inputs ++ d.outputs)

section Unnumbered

open Json

theorem Json.membersUnnumbered_iff {members : List (String × Json)} :
    MembersUnnumbered members ↔ ∀ m ∈ members, m.2.Unnumbered := by
  induction members with
  | nil => simp [MembersUnnumbered]
  | cons m members ih => rw [MembersUnnumbered, List.forall_mem_cons, ih]

theorem Param.unnumbered_jsonMembers (name : Option Identifier) (indexed : Option Bool)
    (word : String) {components : Option Json} (h : ∀ j, components = some j → j.Unnumbered) :
    (Json.obj (Param.jsonMembers name indexed word components)).Unnumbered := by
  cases components with
  | none => cases indexed <;> simp [Param.jsonMembers, Unnumbered, MembersUnnumbered]
  | some j => cases indexed <;> simp [Param.jsonMembers, Unnumbered, MembersUnnumbered, h]

mutual

theorem Ty.unnumbered_jsonComponents :
    (type : Ty) → ∀ j, type.jsonComponents = some j → j.Unnumbered
  | .elementary _, _, h => nomatch h
  | .tuple components, _, h => Option.some.inj h ▸ Param.unnumbered_toJsonList components
  | .array element _, j, h => element.unnumbered_jsonComponents j h

theorem Param.unnumbered_toJsonList :
    (ps : List Param) → ItemsUnnumbered (Param.toJsonList ps)
  | [] => trivial
  | ⟨name, indexed, type⟩ :: rest =>
    ⟨Param.unnumbered_jsonMembers name indexed type.jsonWord type.unnumbered_jsonComponents,
      Param.unnumbered_toJsonList rest⟩

end

theorem Param.unnumbered_toJson (p : Param) : p.toJson.Unnumbered :=
  Param.unnumbered_jsonMembers p.name p.indexed p.type.jsonWord p.type.unnumbered_jsonComponents

end Unnumbered

section Nesting

open Json

mutual

theorem Ty.nesting_jsonComponents :
    (type : Ty) →
      2 * type.tupleDepth ≤ type.jsonComponents.elim 0 (·.toSource.nesting) + 1 ∧
        type.jsonComponents.elim 0 (·.toSource.nesting) ≤ 2 * type.tupleDepth
  | .elementary _ => ⟨Nat.zero_le _, Nat.le_refl 0⟩
  | .tuple components => by
    have h := Param.nesting_toJsonList components
    rw [Ty.jsonComponents, Option.elim_some, Json.toSource, Source.nesting, Ty.tupleDepth]
    omega
  | .array element _ => element.nesting_jsonComponents

theorem Param.nesting_toJsonList :
    (ps : List Param) →
      2 * Param.tupleDepth ps ≤ Source.nestingItems (toSourceItems (Param.toJsonList ps)) ∧
        Source.nestingItems (toSourceItems (Param.toJsonList ps)) ≤ 2 * Param.tupleDepth ps + 1
  | [] => by decide
  | ⟨name, indexed, type⟩ :: rest => by
    have hfirst := type.nesting_jsonComponents
    have hrest := Param.nesting_toJsonList rest
    rw [Param.toJsonList, toSourceItems, Source.nestingItems, ParamObject.nesting_jsonMembers,
      Param.tupleDepth]
    omega

end

theorem Param.nesting_toJson (p : Param) :
    2 * p.type.tupleDepth ≤ p.toJson.toSource.nesting ∧
      p.toJson.toSource.nesting ≤ 2 * p.type.tupleDepth + 1 := by
  have h := p.type.nesting_jsonComponents
  rw [Param.toJson, ParamObject.nesting_jsonMembers]
  omega

end Nesting

/-- Neither a number nor a list. -/
def Json.Flat (j : Json) : Prop := j.Unnumbered ∧ j.toSource.nesting = 0

@[simp] theorem Json.flat_str (s : String) : (str s).Flat := ⟨trivial, rfl⟩

@[simp] theorem Json.flat_bool (b : Bool) : (bool b).Flat := ⟨trivial, rfl⟩

namespace Declaration

open Json

/-- The members of a declaration are flat, apart from its parameters; and those are not left out if
there are tuples among them. -/
theorem exists_members (d : Declaration) :
    ∃ members, d.toJson = .obj members ∧ (∀ m ∈ members, m.1 ∈ DeclarationObject.keys) ∧
      (members.map Prod.fst).Nodup ∧
      (∀ m ∈ members, m.2.Flat ∨ m.2 = paramsJson d.inputs ∨ m.2 = paramsJson d.outputs) ∧
      (0 < Param.tupleDepth d.inputs → ("inputs", paramsJson d.inputs) ∈ members) ∧
      (0 < Param.tupleDepth d.outputs → ("outputs", paramsJson d.outputs) ∈ members) := by
  cases d with
  | constructor ps payable gas =>
    refine ⟨_, rfl, ?_⟩
    cases gas <;> simp [DeclarationObject.keys, gasMembers, inputs, outputs, Param.tupleDepth]
  | function name mutability ps qs gas =>
    refine ⟨_, rfl, ?_⟩
    cases gas <;> simp [DeclarationObject.keys, gasMembers, inputs, outputs]
  | _ =>
    refine ⟨_, rfl, ?_⟩
    simp [DeclarationObject.keys, inputs, outputs, Param.tupleDepth, Param.ofType, Ty.tupleDepth]

theorem nesting_paramsJson (ps : List Param) :
    2 * Param.tupleDepth ps + 1 ≤ (paramsJson ps).toSource.nesting ∧
      (paramsJson ps).toSource.nesting ≤ 2 * Param.tupleDepth ps + 2 := by
  have h := Param.nesting_toJsonList ps
  rw [paramsJson, Json.toSource, Source.nesting]
  omega

/-- What is a number in a declaration is written as a text. -/
theorem unnumbered_toJson (d : Declaration) : d.toJson.Unnumbered := by
  obtain ⟨members, hd, -, -, hall, -⟩ := d.exists_members
  rw [hd, Unnumbered, membersUnnumbered_iff]
  intro m hm
  obtain h | h | h := hall m hm
  · exact h.1
  · exact h ▸ Param.unnumbered_toJsonList d.inputs
  · exact h ▸ Param.unnumbered_toJsonList d.outputs

theorem nesting_toJson_le (d : Declaration) : d.toJson.toSource.nesting ≤ 2 * d.tupleDepth + 3 := by
  obtain ⟨members, hd, -, -, hall, -⟩ := d.exists_members
  rw [hd, Json.toSource, Source.nesting, tupleDepth, Param.tupleDepth_append]
  refine Nat.succ_le_succ (nestingMembers_le_iff.mpr fun m hm => ?_)
  obtain h | h | h := hall m hm
  · rw [h.2]
    exact Nat.zero_le _
  · have hi := (nesting_paramsJson d.inputs).2
    rw [h]
    omega
  · have ho := (nesting_paramsJson d.outputs).2
    rw [h]
    omega

end Declaration

section Limit

open Json

variable {limit : Nat} {members : List (String × Json)} {ps : List Param}

theorem Json.lookup_member {m : String × Json} (hn : (members.map Prod.fst).Nodup)
    (h : m ∈ members) :
    (members.map fun m => (m.1, m.2.toSource)).lookup m.1 = some m.2.toSource := by
  induction members with
  | nil => cases h
  | cons n members ih =>
    rw [List.map_cons, List.nodup_cons] at hn
    rw [List.map_cons, List.lookup_cons]
    obtain rfl | h := List.mem_cons.mp h
    · rw [BEq.rfl]
    · have hne : m.1 ≠ n.1 := fun he => hn.1 (he ▸ List.mem_map_of_mem h)
      rw [beq_false_of_ne hne]
      exact ih hn.2 h

/-- Parameters that are read nest no deeper than the limit. -/
theorem DeclarationObject.nesting_of_optional? {key : String}
    {fields : List (String × Source)} {objects : Option (List ParamObject)}
    (hl : fields.lookup key = some (Declaration.paramsJson ps).toSource)
    (h : Source.optional? (ParamObject.listOfSource? limit) key fields = some objects) :
    (Declaration.paramsJson ps).toSource.nesting ≤ limit := by
  by_contra hlimit
  have hread := (ParamObject.listOfSource?_toJsonList ps limit).trans (if_neg hlimit)
  rw [Source.optional?, hl] at h
  change (ParamObject.listOfSource? limit (Json.arr (Param.toJsonList ps)).toSource).map some = _
    at h
  rw [hread] at h
  cases h

theorem DeclarationObject.nesting_of_ofSource? {o : DeclarationObject}
    (hk : ∀ m ∈ members, m.1 ∈ keys) (hn : (members.map Prod.fst).Nodup)
    (h : ofSource? (limit + 1) (obj members).toSource = some o) {key : String}
    (hkey : key = "inputs" ∨ key = "outputs")
    (hm : (key, Declaration.paramsJson ps) ∈ members) :
    (Declaration.paramsJson ps).toSource.nesting ≤ limit := by
  have hlookup := lookup_member hn hm
  rw [ofSource?, fields?_obj hk hn] at h
  simp only [Option.bind_eq_bind, Option.bind_some, Option.bind_eq_some_iff] at h
  obtain ⟨-, -, -, -, inputs, hi, outputs, ho, -⟩ := h
  obtain rfl | rfl := hkey
  · exact nesting_of_optional? hlookup hi
  · exact nesting_of_optional? hlookup ho

/-- Too deep a tuple is not read, whether it is in the inputs or in the outputs. -/
theorem Declaration.ofSource?_eq_none {d : Declaration} (hpos : 0 < d.tupleDepth)
    (h : limit ≤ 2 * d.tupleDepth) :
    DeclarationObject.ofSource? (limit + 1) d.toJson.toSource = none := by
  obtain ⟨members, hd, hk, hn, -, hi, ho⟩ := d.exists_members
  rw [hd, Option.eq_none_iff_forall_ne_some]
  intro o hread
  have hin := (nesting_paramsJson d.inputs).1
  have hout := (nesting_paramsJson d.outputs).1
  rw [tupleDepth, Param.tupleDepth_append] at h hpos
  obtain hmax | hmax := Nat.le_total (Param.tupleDepth d.outputs) (Param.tupleDepth d.inputs)
  · have hl := DeclarationObject.nesting_of_ofSource? hk hn hread (.inl rfl) (hi (by omega))
    omega
  · have hl := DeclarationObject.nesting_of_ofSource? hk hn hread (.inr rfl) (ho (by omega))
    omega

end Limit

theorem Param.parse_text (indexable : Bool) (p : Param) :
    parse indexable p.toJson.text =
      if p.toJson.toSource.nesting ≤ Json.maxNesting then ofObject indexable p.toObject
      else .error .json := by
  have hhead : (Text.trimStart p.toJson.text.toList).head? = some '\x7b' := by
    rw [Json.text, String.toList_ofList]
    rfl
  rw [parse, if_pos hhead, ofJsonText, ParamObject.ofText?, Json.ofText?_text p.unnumbered_toJson,
    Option.bind_some, ParamObject.ofSource?_toJson]
  by_cases h : p.toJson.toSource.nesting ≤ Json.maxNesting
  · rw [if_pos h, if_pos h]
  · rw [if_neg h, if_neg h]

namespace Declaration

theorem ofText?_text (d : Declaration) :
    DeclarationObject.ofText? d.toJson.text =
      DeclarationObject.ofSource? Json.maxNesting d.toJson.toSource := by
  rw [DeclarationObject.ofText?, Json.ofText?_text d.unnumbered_toJson, Option.bind_some]

theorem parse_text (d : Declaration) : parse d.toJson.text = ofJsonText d.toJson.text := by
  have hhead : (Text.trimStart d.toJson.text.toList).head? = some '\x7b' := by
    rw [Json.text, String.toList_ofList]
    rfl
  rw [parse, if_pos hhead]

theorem parse_text_of_le {d : Declaration} (h : d.tupleDepth ≤ 62) :
    parse d.toJson.text = ofObject d.toObject := by
  have hl : d.toJson.toSource.nesting ≤ 126 + 1 := by
    have hnesting := d.nesting_toJson_le
    omega
  rw [parse_text, ofJsonText, ofText?_text, Json.maxNesting, d.ofSource?_toJson hl]

theorem parse_text_of_lt {d : Declaration} (h : 62 < d.tupleDepth) :
    parse d.toJson.text = .error .json := by
  have hnone : DeclarationObject.ofSource? (126 + 1) d.toJson.toSource = none :=
    ofSource?_eq_none (by omega) (by omega)
  rw [parse_text, ofJsonText, ofText?_text, Json.maxNesting, hnone]

end Declaration

/-- Whatever has no flags inside tuples is read from the JSON text that it is written as, as long as
its tuples are not too deep for the text to be read at all. -/
theorem json_text_round_trip :
    (∀ p : Param, p.type.Unflagged →
      (p.type.tupleDepth ≤ 63 → Param.parse p.indexed.isSome (p.print .json) = .ok p) ∧
      (64 ≤ p.type.tupleDepth →
        Param.parse p.indexed.isSome (p.print .json) = .error .json)) ∧
    ∀ d : Declaration, d.Constructed → (∀ p ∈ d.inputs ++ d.outputs, p.type.Unflagged) →
      ∃ text, d.print .json = .ok text ∧
        (d.tupleDepth ≤ 62 → Declaration.parse text = .ok d) ∧
        (63 ≤ d.tupleDepth → Declaration.parse text = .error .json) := by
  refine ⟨fun p hu => ⟨fun h => ?_, fun h => ?_⟩, fun d hd hu => ⟨_, rfl, fun h => ?_, fun h => ?_⟩⟩
  · have hl : p.toJson.toSource.nesting ≤ Json.maxNesting := by
      rw [Json.maxNesting]
      have hnesting := p.nesting_toJson
      omega
    rw [Param.print, Param.parse_text, if_pos hl]
    exact Param.ofObject_toObject hu
  · have hl : ¬ p.toJson.toSource.nesting ≤ Json.maxNesting := by
      rw [Json.maxNesting]
      have hnesting := p.nesting_toJson
      omega
    rw [Param.print, Param.parse_text, if_neg hl]
  · rw [Declaration.parse_text_of_le h]
    exact Declaration.ofObject_toObject hd hu
  · exact Declaration.parse_text_of_lt h

/-- So many tuples inside each other, in arrays. -/
def Ty.nested : Nat → Ty
  | 0 => .elementary .bool
  | n + 1 => .array (.tuple [⟨none, none, nested n⟩]) none

theorem Ty.tupleDepth_nested (n : Nat) : (nested n).tupleDepth = n := by
  induction n with
  | zero => rfl
  | succ n ih => simp [nested, tupleDepth, Param.tupleDepth, ih]

theorem Ty.unflagged_nested (n : Nat) : (nested n).Unflagged := by
  induction n with
  | zero => trivial
  | succ n ih => exact ⟨rfl, ih, trivial⟩

/-- A declaration with so many tuples inside each other. -/
def Declaration.nested (n : Nat) : Declaration := .error ⟨"E", by decide⟩ [⟨none, none, .nested n⟩]

theorem Declaration.tupleDepth_nested (n : Nat) : (nested n).tupleDepth = n :=
  (Nat.max_zero _).trans (Ty.tupleDepth_nested n)

theorem json_text_round_trip_deepest :
    Param.parse true (Param.print .json ⟨none, some true, .nested 63⟩) =
      .ok ⟨none, some true, .nested 63⟩ ∧
    Param.parse true (Param.print .json ⟨none, some true, .nested 64⟩) = .error .json ∧
    (∃ text, (Declaration.nested 62).print .json = .ok text ∧
      Declaration.parse text = .ok (Declaration.nested 62)) ∧
    ∃ text, (Declaration.nested 63).print .json = .ok text ∧
      Declaration.parse text = .error .json := by
  have hparam (n : Nat) := json_text_round_trip.1 ⟨none, some true, .nested n⟩
    (Ty.unflagged_nested n)
  have hmade (n : Nat) : (Declaration.nested n).Constructed :=
    .error (Declaration.mkError_eq ⟨"E", by decide⟩ (by simp))
  have hdeclaration (n : Nat) := json_text_round_trip.2 (Declaration.nested n) (hmade n)
    (List.forall_mem_singleton.mpr (Ty.unflagged_nested n))
  obtain ⟨shallow, hshallow, hok, -⟩ := hdeclaration 62
  obtain ⟨deep, hdeep, -, herror⟩ := hdeclaration 63
  exact ⟨(hparam 63).1 (Ty.tupleDepth_nested 63).le, (hparam 64).2 (Ty.tupleDepth_nested 64).ge,
    ⟨shallow, hshallow, hok (Declaration.tupleDepth_nested 62).le⟩,
    ⟨deep, hdeep, herror (Declaration.tupleDepth_nested 63).ge⟩⟩

end ContractAbi
