import ContractAbi.Declaration.Object
import ContractAbi.Declaration.Print
import ContractAbi.Proofs.Signature
import ContractAbi.Proofs.Members
import ContractAbi.Proofs.TypeText

/-!
Values written as JSON are read back. Between the two stand the records of their fields: what is
written has the fields of the value, and the value is what these fields say.
-/

namespace ContractAbi

mutual

/-- No component of a tuple, however deep, has an indexed flag. -/
def Ty.Unflagged : Ty → Prop
  | .elementary _ => True
  | .tuple components => Param.AllUnflagged components
  | .array element _ => element.Unflagged

def Param.AllUnflagged : List Param → Prop
  | [] => True
  | ⟨_, indexed, type⟩ :: rest => indexed = none ∧ type.Unflagged ∧ Param.AllUnflagged rest

end

mutual

/-- The objects of the components that a type's text leaves out. -/
def Ty.objects : Ty → Option (List ParamObject)
  | .elementary _ => none
  | .tuple components => some (Param.toObjects components)
  | .array element _ => element.objects

def Param.toObjects : List Param → List ParamObject
  | [] => []
  | ⟨name, indexed, type⟩ :: rest =>
    ⟨some (name.elim "" Identifier.text), type.jsonWord, indexed, type.objects⟩ ::
      Param.toObjects rest

end

/-- The fields of a parameter. -/
def Param.toObject (p : Param) : ParamObject :=
  ⟨some p.nameText, p.type.jsonWord, p.indexed, p.type.objects⟩

theorem Param.toObjects_eq (ps : List Param) : Param.toObjects ps = ps.map Param.toObject := by
  induction ps with
  | nil => rfl
  | cons p ps ih =>
    cases p
    rw [toObjects, ih]
    rfl

namespace Elementary

theorem isWordChar_of_mem_text {type : Elementary} {c : Char} (h : c ∈ type.text.toList) :
    isWordChar c = true := (word_chars type.isIdentifier_text).2 c h

end Elementary

namespace Ty

theorem isBlank_of_mem_tuple : ∀ c ∈ "tuple".toList, Text.isBlank c = false := by
  simp [Text.isBlank]

theorem isBlank_of_mem_jsonWord {c : Char} :
    (type : Ty) → c ∈ type.jsonWord.toList → Text.isBlank c = false
  | .elementary e, h => isBlank_of_isWordChar (e.isWordChar_of_mem_text h)
  | .tuple _, h => isBlank_of_mem_tuple c h
  | .array element length, h => by
    rw [jsonWord, String.toList_append] at h
    rcases List.mem_append.mp h with h | h
    · exact isBlank_of_mem_jsonWord element h
    · exact isBlank_of_mem_arraySuffix h

theorem headOf_elementary (e : Elementary) (components : Option (Except Error (List Param))) :
    headOf e.text components = .ok (.elementary e) := by
  rw [headOf_of_not_tupleText (Elementary.isTupleText_of_shape? e.isSome_shape?), Param.elementary,
    e.ofString_text]
  rfl

theorem headOf_tuple (ps : List Param) : headOf "tuple" (some (.ok ps)) = .ok (.tuple ps) := rfl

end Ty

theorem Param.nameOf_elim (name : Option Identifier) :
    Param.nameOf (name.elim "" Identifier.text) = .ok name := by
  cases name with
  | none => rfl
  | some name => exact Param.nameOf_text name

theorem Param.flagOf_isSome (indexed : Option Bool) :
    Param.flagOf indexed.isSome indexed = .ok indexed := by
  cases indexed <;> rfl

theorem Param.assemble_eq (name : Option Identifier) (indexed : Option Bool) (type : Ty) :
    Param.assemble indexed.isSome (some (name.elim "" Identifier.text)) indexed (.ok type) =
      .ok ⟨name, indexed, type⟩ := by
  unfold assemble
  rw [Option.getD_some, nameOf_elim, flagOf_isSome]
  rfl

mutual

/-- A type is what its word and its components say. -/
theorem Ty.ofText_jsonWord :
    (type : Ty) → type.Unflagged →
      Ty.ofText type.jsonWord (Param.ofComponents type.objects) = .ok type
  | .elementary e, _ => by
    -- a word of letters and digits has no suffix
    have hl : e.text.toList.getLast? ≠ some ']' := by
      intro hl
      have hc := e.isWordChar_of_mem_text (List.mem_of_getLast? hl)
      exact absurd hc (by decide)
    have hw : ∀ c ∈ e.text.toList, Text.isBlank c = false :=
      fun c hc => isBlank_of_isWordChar (e.isWordChar_of_mem_text hc)
    exact (Ty.ofText_base hw hl).trans (Ty.headOf_elementary e _)
  | .tuple components, h => by
    have hps := Param.ofObjects_toObjects components h
    rw [Ty.jsonWord, Ty.objects, Param.ofComponents, hps,
      Ty.ofText_base Ty.isBlank_of_mem_tuple (by decide), Ty.headOf_tuple]
  | .array element length, h =>
    Ty.ofText_suffix (fun _ hc => Ty.isBlank_of_mem_jsonWord element hc)
      (Ty.ofText_jsonWord element h) length

theorem Param.ofObjects_toObjects :
    (ps : List Param) → Param.AllUnflagged ps →
      Param.ofObjects (Param.toObjects ps) = .ok ps
  | [], _ => rfl
  | ⟨name, indexed, type⟩ :: rest, h => by
    obtain ⟨rfl, ht, hr⟩ := h
    have hp : Param.assemble false (some (name.elim "" Identifier.text)) none
        (Ty.ofText type.jsonWord (Param.ofComponents type.objects)) = .ok ⟨name, none, type⟩ := by
      rw [Ty.ofText_jsonWord type ht]
      exact Param.assemble_eq name none type
    rw [Param.toObjects, Param.ofObjects, Param.ofObject, hp, Param.ofObjects_toObjects rest hr]
    rfl

end

theorem Param.ofObject_toObject {p : Param} (h : p.type.Unflagged) :
    Param.ofObject p.indexed.isSome p.toObject = .ok p := by
  cases p
  rw [toObject, ofObject, Ty.ofText_jsonWord _ h]
  exact assemble_eq _ _ _

namespace Json

theorem nestingMembers_le_iff {members : List (String × Json)} {n : Nat} :
    Source.nestingMembers (toSourceMembers members) ≤ n ↔
      ∀ m ∈ members, m.2.toSource.nesting ≤ n := by
  induction members with
  | nil => simp [toSourceMembers, Source.nestingMembers]
  | cons m members ih =>
    rw [toSourceMembers, Source.nestingMembers, Nat.max_le, List.forall_mem_cons, ih]

theorem nesting_member {members : List (String × Json)} {m : String × Json} {limit : Nat}
    (hl : (obj members).toSource.nesting ≤ limit + 1) (h : m ∈ members) :
    m.2.toSource.nesting ≤ limit := by
  rw [toSource, Source.nesting] at hl
  exact nestingMembers_le_iff.mp (Nat.le_of_succ_le_succ hl) m h

/-- What a record finds of an object whose keys are all its own. -/
theorem fields?_obj {keys : List String} {members : List (String × Json)}
    (hk : ∀ m ∈ members, m.1 ∈ keys) (hn : (members.map Prod.fst).Nodup) :
    Source.fields? keys (obj members).toSource =
      some (members.map fun m => (m.1, m.2.toSource)) := by
  have hknown : Source.known keys (toSourceMembers members) =
      members.map fun m => (m.1, m.2.toSource) := by
    rw [toSourceMembers_eq, Source.known, List.filterMap_map, ← List.filterMap_eq_map]
    exact List.filterMap_congr fun m hm => if_pos (List.contains_iff_mem.mpr (hk m hm))
  rw [toSource, Source.fields?, Source.knownMembers?_eq_some_iff, hknown, List.map_map]
  refine ⟨rfl, hn, ?_⟩
  rw [toSourceMembers_eq, List.forall_mem_map]
  exact fun _ _ => rfl

end Json

/-- The components of the tuple that a type is an array of, however many times, or is itself. -/
def Ty.components? : Ty → Option (List Param)
  | .elementary _ => none
  | .tuple components => some components
  | .array element _ => element.components?

theorem Ty.jsonComponents_eq :
    (type : Ty) → type.jsonComponents = type.components?.map fun ps => .arr (Param.toJsonList ps)
  | .elementary _ => rfl
  | .tuple _ => rfl
  | .array element _ => element.jsonComponents_eq

theorem Ty.objects_eq : (type : Ty) → type.objects = type.components?.map Param.toObjects
  | .elementary _ => rfl
  | .tuple _ => rfl
  | .array element _ => element.objects_eq

namespace ParamObject

theorem keys_jsonMembers (name : Option Identifier) (indexed : Option Bool) (word : String)
    (components : Option Json) :
    (∀ m ∈ Param.jsonMembers name indexed word components, m.1 ∈ keys) ∧
      ((Param.jsonMembers name indexed word components).map Prod.fst).Nodup := by
  cases components <;> cases indexed <;> simp [Param.jsonMembers, keys]

theorem nesting_jsonMembers (name : Option Identifier) (indexed : Option Bool) (word : String)
    (components : Option Json) :
    (Json.obj (Param.jsonMembers name indexed word components)).toSource.nesting =
      components.elim 0 (·.toSource.nesting) + 1 := by
  cases components <;> cases indexed <;>
    simp [Param.jsonMembers, Json.toSource, Json.toSourceMembers, Json.Source.nesting,
      Json.Source.nestingMembers]

/-- What is written of a parameter has its fields, if the components can be read. -/
theorem ofSource?_jsonMembers {limit : Nat} (name : Option Identifier) (indexed : Option Bool)
    (word : String) (components : Option (List Param)) :
    ofSource? (limit + 1) (Json.obj (Param.jsonMembers name indexed word
        (components.map fun ps => .arr (Param.toJsonList ps)))).toSource =
      (components.elim (some none) fun ps =>
        (listOfSource? limit (.arr (Json.toSourceItems (Param.toJsonList ps)))).map some).map
          fun objects => ⟨some (name.elim "" Identifier.text), word, indexed, objects⟩ := by
  obtain ⟨hk, hn⟩ := keys_jsonMembers name indexed word
    (components.map fun ps => .arr (Param.toJsonList ps))
  rw [ofSource?, Json.fields?_obj hk hn]
  cases components with
  | none =>
    cases indexed <;>
      simp [Param.jsonMembers, Json.Source.optional?, Json.toSource, List.lookup_cons,
        Json.Source.str?, Json.Source.bool?]
  | some ps =>
    cases indexed <;>
      simp [Param.jsonMembers, Json.Source.optional?, Json.toSource, List.lookup_cons,
        Json.Source.str?, Json.Source.bool?, Option.map_eq_bind, Option.bind_assoc]

theorem ofSource?_object {type : Ty} (name : Option Identifier) (indexed : Option Bool)
    (hc : ∀ limit ps, type.components? = some ps →
      listOfSource? limit (Json.arr (Param.toJsonList ps)).toSource =
        if (Json.arr (Param.toJsonList ps)).toSource.nesting ≤ limit then some (Param.toObjects ps)
        else none) (limit : Nat) :
    ofSource? limit
        (Json.obj (Param.jsonMembers name indexed type.jsonWord type.jsonComponents)).toSource =
      if (Json.obj (Param.jsonMembers name indexed type.jsonWord
          type.jsonComponents)).toSource.nesting ≤ limit then
        some ⟨some (name.elim "" Identifier.text), type.jsonWord, indexed, type.objects⟩
      else none := by
  rw [nesting_jsonMembers, type.jsonComponents_eq, type.objects_eq]
  cases limit with
  | zero => rfl
  | succ limit =>
    rw [ofSource?_jsonMembers]
    cases ht : type.components? with
    | none => exact (if_pos (Nat.succ_le_succ (Nat.zero_le _))).symm
    | some ps =>
      change ((listOfSource? limit (Json.arr (Param.toJsonList ps)).toSource).map some).map _ = _
      rw [hc limit ps ht]
      by_cases hl : (Json.arr (Param.toJsonList ps)).toSource.nesting ≤ limit
      · rw [if_pos hl]
        exact (if_pos (Nat.succ_le_succ hl)).symm
      · rw [if_neg hl]
        exact (if_neg fun h => hl (Nat.le_of_succ_le_succ h)).symm

mutual

/-- Components are read if and only if they nest no deeper than the limit. -/
theorem listOfSource?_components :
    (type : Ty) → (limit : Nat) → (ps : List Param) → type.components? = some ps →
      listOfSource? limit (Json.arr (Param.toJsonList ps)).toSource =
        if (Json.arr (Param.toJsonList ps)).toSource.nesting ≤ limit then some (Param.toObjects ps)
        else none
  | .elementary _, _, _, h => nomatch h
  | .tuple components, limit, ps, h => by
    obtain rfl := Option.some.inj h
    rw [Json.toSource, Json.Source.nesting]
    cases limit with
    | zero => rfl
    | succ limit =>
      simp only [listOfSource?, mapM_toJsonList components limit, Nat.add_le_add_iff_right]
  | .array element _, limit, ps, h => listOfSource?_components element limit ps h

theorem mapM_toJsonList :
    (ps : List Param) → (limit : Nat) →
      (Json.toSourceItems (Param.toJsonList ps)).mapM (ofSource? limit) =
        if Json.Source.nestingItems (Json.toSourceItems (Param.toJsonList ps)) ≤ limit then
          some (Param.toObjects ps)
        else none
  | [], _ => (if_pos (Nat.zero_le _)).symm
  | ⟨name, indexed, type⟩ :: rest, limit => by
    have hobject := ofSource?_object name indexed
      (fun limit ps h => listOfSource?_components type limit ps h) limit
    simp only [Param.toJsonList, Json.toSourceItems, Json.Source.nestingItems, List.mapM_cons,
      hobject, mapM_toJsonList rest limit, Param.toObjects, Nat.max_le, ite_and]
    split
    · split
      · rfl
      · rfl
    · rfl

end

theorem ofSource?_toJson (p : Param) (limit : Nat) :
    ofSource? limit p.toJson.toSource =
      if p.toJson.toSource.nesting ≤ limit then some p.toObject else none :=
  ofSource?_object p.name p.indexed (listOfSource?_components p.type) limit

theorem ofJson?_toJson (p : Param) : ofJson? p.toJson = some p.toObject := by
  rw [ofJson?, ofSource?_toJson, if_pos le_rfl]

theorem listOfSource?_toJsonList (ps : List Param) (limit : Nat) :
    listOfSource? limit (Json.arr (Param.toJsonList ps)).toSource =
      if (Json.arr (Param.toJsonList ps)).toSource.nesting ≤ limit then some (Param.toObjects ps)
      else none :=
  listOfSource?_components (.tuple ps) limit ps rfl

end ParamObject

theorem Param.ofJson_toJson {p : Param} (h : p.type.Unflagged) :
    Param.ofJson p.indexed.isSome p.toJson = .ok p := by
  rw [Param.ofJson, ParamObject.ofJson?_toJson]
  exact Param.ofObject_toObject h

namespace Declaration

/-- What the constructors make of what they are given. -/
inductive Constructed : Declaration → Prop where
  | constructor {inputs : List Param} {payable : Bool} {gas : Option Nat} {d : Declaration}
      (h : mkConstructor inputs payable gas = .ok d) : Constructed d
  | error {name : String} {inputs : List Param} {d : Declaration}
      (h : mkError name inputs = .ok d) : Constructed d
  | event {name : String} {inputs : List Param} {anonymous : Bool} {d : Declaration}
      (h : mkEvent name inputs anonymous = .ok d) : Constructed d
  | fallback (payable : Bool) : Constructed (fallback payable)
  | receive : Constructed receive
  | function {name : String} {mutability : Mutability} {inputs outputs : List Param}
      {gas : Option Nat} {d : Declaration}
      (h : mkFunction name mutability inputs outputs gas = .ok d) : Constructed d
  | struct {name : String} {inputs : List Param} {d : Declaration}
      (h : mkStruct name inputs = .ok d) : Constructed d

/-- The constructors again, with all the parameters that they are given. -/
inductive MadeOf : List Param → Declaration → Prop where
  | constructor {inputs : List Param} {payable : Bool} {gas : Option Nat} {d : Declaration}
      (h : mkConstructor inputs payable gas = .ok d) : MadeOf inputs d
  | error {name : String} {inputs : List Param} {d : Declaration}
      (h : mkError name inputs = .ok d) : MadeOf inputs d
  | event {name : String} {inputs : List Param} {anonymous : Bool} {d : Declaration}
      (h : mkEvent name inputs anonymous = .ok d) : MadeOf inputs d
  | fallback (payable : Bool) : MadeOf [] (fallback payable)
  | receive : MadeOf [] receive
  | function {name : String} {mutability : Mutability} {inputs outputs : List Param}
      {gas : Option Nat} {d : Declaration}
      (h : mkFunction name mutability inputs outputs gas = .ok d) : MadeOf (inputs ++ outputs) d
  | struct {name : String} {inputs : List Param} {d : Declaration}
      (h : mkStruct name inputs = .ok d) : MadeOf inputs d

theorem MadeOf.constructed {ps : List Param} {d : Declaration} (h : MadeOf ps d) :
    d.Constructed := by
  cases h with
  | constructor h => exact .constructor h
  | error h => exact .error h
  | event h => exact .event h
  | fallback payable => exact .fallback payable
  | receive => exact .receive
  | function h => exact .function h
  | struct h => exact .struct h

/-- The fields of a declaration. -/
def toObject : Declaration → DeclarationObject
  | constructor inputs payable gas =>
    ⟨some "constructor", none, some (Param.toObjects inputs), none,
      some (payableMutability payable), none, none, some payable, gas.map fun n => .str n.repr⟩
  | error name inputs =>
    ⟨some "error", some name.text, some (Param.toObjects inputs), none, none, none, none, none,
      none⟩
  | event name inputs anonymous =>
    ⟨some "event", some name.text, some (Param.toObjects inputs), none, none, some anonymous, none,
      none, none⟩
  | fallback payable =>
    ⟨some "fallback", none, none, none, some (payableMutability payable), none, none, none, none⟩
  | receive => ⟨some "receive", none, none, none, some .payable, none, none, none, none⟩
  | function name mutability inputs outputs gas =>
    ⟨some "function", some name.text, some (Param.toObjects inputs),
      some (Param.toObjects outputs), some mutability, none, some mutability.isConstant,
      some (mutability == .payable), gas.map fun n => .str n.repr⟩
  | struct name inputs =>
    ⟨some "struct", some name.text, some (Param.toObjects inputs), none, none, none, none, none,
      none⟩

theorem listOfSource?_member (key : String) (ps : List Param) {members : List (String × Json)}
    {limit : Nat} (hl : (Json.obj members).toSource.nesting ≤ limit + 1)
    (h : (key, paramsJson ps) ∈ members) :
    ParamObject.listOfSource? limit (.arr (Json.toSourceItems (Param.toJsonList ps))) =
      some (Param.toObjects ps) :=
  (ParamObject.listOfSource?_toJsonList ps limit).trans (if_pos (Json.nesting_member hl h))

theorem mutabilityOf?_name (limit : Nat) (m : Mutability) :
    DeclarationObject.mutabilityOf? limit (.str (some m.name)) = some m := Mutability.ofName?_name m

section Gas

variable (gas : Option Nat)

theorem lookup_gasMembers {key : String} (rest : List (String × Json.Source)) (h : key ≠ "gas") :
    ((gasMembers gas).map (fun m => (m.1, m.2.toSource)) ++ rest).lookup key = rest.lookup key := by
  have hne : (key == "gas") = false := beq_false_of_ne h
  cases gas with
  | none => rfl
  | some n => simp [gasMembers, List.lookup_cons, hne]

end Gas

/-- What is written of a declaration has its fields. -/
theorem ofSource?_toJson (d : Declaration) {limit : Nat}
    (hl : d.toJson.toSource.nesting ≤ limit + 1) :
    DeclarationObject.ofSource? (limit + 1) d.toJson.toSource = some d.toObject := by
  rw [DeclarationObject.ofSource?]
  cases d with
  | constructor inputs payable gas =>
    have hi := listOfSource?_member "inputs" inputs hl (by simp)
    rw [toJson, Json.fields?_obj (by cases gas <;> simp [DeclarationObject.keys, gasMembers])
      (by cases gas <;> simp [gasMembers])]
    simp [paramsJson, Json.Source.optional?, Json.toSource, lookup_gasMembers, List.lookup_cons, hi,
      Json.Source.str?, Json.Source.bool?, mutabilityOf?_name, toObject, word, kind, Kind.name]
    cases gas <;> rfl
  | error name inputs =>
    have hi := listOfSource?_member "inputs" inputs hl (by simp)
    rw [toJson, Json.fields?_obj (by simp [DeclarationObject.keys]) (by simp)]
    simp [paramsJson, Json.Source.optional?, Json.toSource, List.lookup_cons, hi, Json.Source.str?,
      toObject, word, kind, Kind.name]
  | event name inputs anonymous =>
    have hi := listOfSource?_member "inputs" inputs hl (by simp)
    rw [toJson, Json.fields?_obj (by simp [DeclarationObject.keys]) (by simp)]
    simp [paramsJson, Json.Source.optional?, Json.toSource, List.lookup_cons, hi, Json.Source.str?,
      Json.Source.bool?, toObject, word, kind, Kind.name]
  | fallback payable =>
    rw [toJson, Json.fields?_obj (by simp [DeclarationObject.keys]) (by simp)]
    simp [Json.Source.optional?, Json.toSource, List.lookup_cons, Json.Source.str?,
      mutabilityOf?_name, toObject, word, kind, Kind.name]
  | receive =>
    rw [toJson, Json.fields?_obj (by simp [DeclarationObject.keys]) (by simp)]
    simp [Json.Source.optional?, Json.toSource, List.lookup_cons, Json.Source.str?,
      mutabilityOf?_name, toObject, word, payableMutability]
  | function name mutability inputs outputs gas =>
    have hi := listOfSource?_member "inputs" inputs hl (by simp)
    have ho := listOfSource?_member "outputs" outputs hl (by simp)
    rw [toJson, Json.fields?_obj (by cases gas <;> simp [DeclarationObject.keys, gasMembers])
      (by cases gas <;> simp [gasMembers])]
    simp [paramsJson, Json.Source.optional?, Json.toSource, lookup_gasMembers, List.lookup_cons, hi,
      ho, Json.Source.str?, Json.Source.bool?, mutabilityOf?_name, toObject, word, kind, Kind.name]
    cases gas <;> rfl
  | struct name inputs =>
    have hi := listOfSource?_member "inputs" inputs hl (by simp)
    rw [toJson, Json.fields?_obj (by simp [DeclarationObject.keys]) (by simp)]
    simp [paramsJson, Json.Source.optional?, Json.toSource, List.lookup_cons, hi, Json.Source.str?,
      toObject, word, kind, Kind.name]

theorem ofJson?_toJson (d : Declaration) :
    DeclarationObject.ofJson? d.toJson = some d.toObject :=
  d.ofSource?_toJson le_rfl

theorem params_toObjects {indexable : Bool} {ps : List Param}
    (hi : ∀ p ∈ ps, p.indexed.isSome = indexable) (hu : ∀ p ∈ ps, p.type.Unflagged) :
    DeclarationObject.params indexable (some (Param.toObjects ps)) = .ok ps := by
  rw [DeclarationObject.params, Option.getD_some, Param.toObjects_eq]
  induction ps with
  | nil => rfl
  | cons p ps ih =>
    rw [List.forall_mem_cons] at hi hu
    have hp : Param.ofObject indexable p.toObject = .ok p := by
      rw [← hi.1]
      exact Param.ofObject_toObject hu.1
    rw [List.map_cons, List.mapM_cons, hp, ih hi.2 hu.2]
    rfl

theorem gasOf?_of_decimal? {text : String} {n : Nat} (h : Text.decimal? text.toList = some n) :
    DeclarationObject.gasOf? (.str text) = some n := by
  rw [DeclarationObject.gasOf?, DeclarationObject.gasOfText?, h]
  -- a decimal numeral does not begin like a hexadecimal one
  intro rest hn
  rw [hn] at h
  exact absurd ((Text.decimal?_eq_some.mp h).2.1 'x' (by simp)) (by decide)

theorem gasAmount_of_some {o : DeclarationObject} {j : Json} {n : Nat} (ho : o.gas = some j)
    (h : DeclarationObject.gasOf? j = some n) : o.gasAmount = .ok (some n) := by
  rw [DeclarationObject.gasAmount, ho]
  dsimp only
  rw [h]

theorem gasAmount_eq {o : DeclarationObject} {gas : Option Nat}
    (h : o.gas = gas.map fun n => .str n.repr) : o.gasAmount = .ok gas := by
  cases gas with
  | none => rw [DeclarationObject.gasAmount, h, Option.map_none]
  | some n => exact gasAmount_of_some h (gasOf?_of_decimal? (Text.decimal?_repr n))

theorem indexed_of_unindexed {ps qs : List Param} (h : unindexed ps = .ok qs) :
    ∀ q ∈ qs, q.indexed.isSome = false := by
  rw [unindexed] at h
  split at h
  · cases h
  · obtain rfl := Except.ok.inj h
    intro q hq
    obtain ⟨p, -, rfl⟩ := List.mem_map.mp hq
    rfl

theorem indexed_of_flagged (ps : List Param) : ∀ q ∈ flagged ps, q.indexed.isSome = true := by
  intro q hq
  obtain ⟨p, -, rfl⟩ := List.mem_map.mp hq
  rfl

/-- Inputs of an event have a flag, all other parameters have none. -/
theorem Constructed.indexed {d : Declaration} (hd : d.Constructed) :
    (∀ p ∈ d.inputs, p.indexed.isSome = (d.kind == .event)) ∧
      ∀ p ∈ d.outputs, p.indexed.isSome = false := by
  cases hd with
  | constructor h =>
    simp only [mkConstructor, bind_eq_ok_iff, pure, Except.pure, Except.ok.injEq] at h
    obtain ⟨inputs, hi, rfl⟩ := h
    exact ⟨indexed_of_unindexed hi, by simp [outputs]⟩
  | error h =>
    simp only [mkError, bind_eq_ok_iff, pure, Except.pure, Except.ok.injEq] at h
    obtain ⟨inputs, hi, name, hn, rfl⟩ := h
    exact ⟨indexed_of_unindexed hi, by simp [outputs]⟩
  | event h =>
    simp only [mkEvent, bind_eq_ok_iff, pure, Except.pure, Except.ok.injEq] at h
    obtain ⟨name, hn, rfl⟩ := h
    exact ⟨indexed_of_flagged _, by simp [outputs]⟩
  | fallback payable =>
    refine ⟨?_, by simp [outputs]⟩
    intro p hp
    obtain rfl := List.mem_singleton.mp hp
    rfl
  | receive => exact ⟨by simp [inputs], by simp [outputs]⟩
  | function h =>
    simp only [mkFunction, bind_eq_ok_iff, pure, Except.pure, Except.ok.injEq] at h
    obtain ⟨inputs, hi, outputs, ho, name, hn, rfl⟩ := h
    exact ⟨indexed_of_unindexed hi, indexed_of_unindexed ho⟩
  | struct h =>
    simp only [mkStruct, bind_eq_ok_iff, pure, Except.pure, Except.ok.injEq] at h
    obtain ⟨inputs, hi, name, hn, rfl⟩ := h
    exact ⟨indexed_of_unindexed hi, by simp [outputs]⟩

/-- A declaration is what its fields say. -/
theorem ofObject_toObject {d : Declaration} (hd : d.Constructed)
    (hu : ∀ p ∈ d.inputs ++ d.outputs, p.type.Unflagged) : ofObject d.toObject = .ok d := by
  obtain ⟨hi, ho⟩ := hd.indexed
  rw [List.forall_mem_append] at hu
  -- the word and the mutability are read off by computation; the parameters and the gas are read
  -- one after the other, and put together again
  cases d with
  | constructor inputs payable gas =>
    have hread : constructorOfObject (toObject (constructor inputs payable gas)) = (do
        let inputs ← DeclarationObject.params false (some (Param.toObjects inputs))
        let gas ← (toObject (constructor inputs payable gas)).gasAmount
        mkConstructor inputs payable gas) := by
      cases payable <;> rfl
    refine hread.trans (bind_eq_ok_iff.mpr ⟨inputs, params_toObjects hi hu.1, ?_⟩)
    exact bind_eq_ok_iff.mpr ⟨gas, gasAmount_eq rfl, mkConstructor_eq hi payable gas⟩
  | error name inputs =>
    change (DeclarationObject.params false (some (Param.toObjects inputs)) >>=
      mkError name.text) = _
    exact bind_eq_ok_iff.mpr ⟨inputs, params_toObjects hi hu.1, mkError_eq name hi⟩
  | event name inputs anonymous =>
    change (DeclarationObject.params true (some (Param.toObjects inputs)) >>=
      fun inputs => mkEvent name.text inputs anonymous) = _
    exact bind_eq_ok_iff.mpr ⟨inputs, params_toObjects hi hu.1, mkEvent_eq name hi anonymous⟩
  | fallback payable => cases payable <;> rfl
  | receive => rfl
  | function name mutability inputs outputs gas =>
    change (do
      let inputs ← DeclarationObject.params false (some (Param.toObjects inputs))
      let outputs ← DeclarationObject.params false (some (Param.toObjects outputs))
      let gas ← (toObject (function name mutability inputs outputs gas)).gasAmount
      mkFunction name.text mutability inputs outputs gas) = _
    refine bind_eq_ok_iff.mpr ⟨inputs, params_toObjects hi hu.1, ?_⟩
    refine bind_eq_ok_iff.mpr ⟨outputs, params_toObjects ho hu.2, ?_⟩
    exact bind_eq_ok_iff.mpr ⟨gas, gasAmount_eq rfl, mkFunction_eq name mutability hi ho gas⟩
  | struct name inputs =>
    change (DeclarationObject.params false (some (Param.toObjects inputs)) >>=
      mkStruct name.text) = _
    exact bind_eq_ok_iff.mpr ⟨inputs, params_toObjects hi hu.1, mkStruct_eq name hi⟩

theorem ofJson_toJson {d : Declaration} (hd : d.Constructed)
    (hu : ∀ p ∈ d.inputs ++ d.outputs, p.type.Unflagged) : ofJson d.toJson = .ok d := by
  rw [ofJson, ofJson?_toJson]
  exact ofObject_toObject hd hu

theorem constructed_of_declares {ts : List Symbol} {d : Declaration} (h : Grammar.Declares ts d) :
    d.Constructed := by
  cases h with
  | constructor hi hw hg => exact .constructor (mkConstructor_eq hi.isSome_indexed _ _)
  | error name hi => exact .error (mkError_eq name hi.isSome_indexed)
  | struct name hi => exact .struct (mkStruct_eq name hi.isSome_indexed)
  | event name anonymous hi => exact .event (mkEvent_eq name hi.isSome_indexed anonymous)
  | function name hi hv ho hg =>
    exact .function (mkFunction_eq name _ hi.isSome_indexed ho.isSome_indexed _)
  | fallback payable hi takes hv ho returns => exact .fallback payable
  | receive hv => exact .receive

theorem exists_ofObject_of_mem_params {indexable : Bool} {objects : Option (List ParamObject)}
    {ps : List Param} {p : Param} (h : DeclarationObject.params indexable objects = .ok ps)
    (hp : p ∈ ps) : ∃ object, Param.ofObject indexable object = .ok p := by
  rw [DeclarationObject.params] at h
  generalize objects.getD [] = objects at h
  induction objects generalizing ps with
  | nil =>
    obtain rfl := Except.ok.inj h
    cases hp
  | cons object objects ih =>
    rw [List.mapM_cons] at h
    obtain ⟨q, hq, h⟩ := bind_eq_ok_iff.mp h
    obtain ⟨qs, hqs, h⟩ := bind_eq_ok_iff.mp h
    obtain rfl := Except.ok.inj h
    obtain rfl | hp := List.mem_cons.mp hp
    · exact ⟨object, hq⟩
    · exact ih hp hqs

/-- What is read from an object is made of parameters that are read from objects. -/
theorem madeOf_of_ofObjectAs {kind : Kind} {o : DeclarationObject} {d : Declaration}
    (h : ofObjectAs kind o = .ok d) :
    ∃ ps, MadeOf ps d ∧ ∀ p ∈ ps, ∃ indexable object, Param.ofObject indexable object = .ok p := by
  have hread {indexable : Bool} {objects : Option (List ParamObject)} {ps : List Param}
      (h : DeclarationObject.params indexable objects = .ok ps) :
      ∀ p ∈ ps, ∃ indexable object, Param.ofObject indexable object = .ok p :=
    fun p hp => ⟨indexable, exists_ofObject_of_mem_params h hp⟩
  cases kind with
  | constructor =>
    obtain ⟨-, -, h⟩ := bind_eq_ok_iff.mp h
    obtain ⟨m, -, h⟩ := bind_eq_ok_iff.mp h
    cases m with
    | pure | view => cases h
    | nonpayable | payable =>
      obtain ⟨payable, -, h⟩ := bind_eq_ok_iff.mp h
      obtain ⟨inputs, hi, h⟩ := bind_eq_ok_iff.mp h
      obtain ⟨gas, -, h⟩ := bind_eq_ok_iff.mp h
      exact ⟨inputs, .constructor h, hread hi⟩
  | error =>
    obtain ⟨-, -, h⟩ := bind_eq_ok_iff.mp h
    obtain ⟨name, -, h⟩ := bind_eq_ok_iff.mp h
    obtain ⟨inputs, hi, h⟩ := bind_eq_ok_iff.mp h
    exact ⟨inputs, .error h, hread hi⟩
  | event =>
    obtain ⟨-, -, h⟩ := bind_eq_ok_iff.mp h
    obtain ⟨name, -, h⟩ := bind_eq_ok_iff.mp h
    obtain ⟨inputs, hi, h⟩ := bind_eq_ok_iff.mp h
    exact ⟨inputs, .event h, hread hi⟩
  | fallback =>
    obtain ⟨-, -, h⟩ := bind_eq_ok_iff.mp h
    split at h
    · split at h
      · cases h
        exact ⟨[], .receive, by simp⟩
      · cases h
    · obtain ⟨m, -, h⟩ := bind_eq_ok_iff.mp h
      cases m with
      | pure | view => cases h
      | nonpayable | payable =>
        cases h
        exact ⟨[], .fallback _, by simp⟩
  | function =>
    obtain ⟨-, -, h⟩ := bind_eq_ok_iff.mp h
    obtain ⟨name, -, h⟩ := bind_eq_ok_iff.mp h
    obtain ⟨m, -, h⟩ := bind_eq_ok_iff.mp h
    obtain ⟨inputs, hi, h⟩ := bind_eq_ok_iff.mp h
    obtain ⟨outputs, ho, h⟩ := bind_eq_ok_iff.mp h
    obtain ⟨gas, -, h⟩ := bind_eq_ok_iff.mp h
    exact ⟨inputs ++ outputs, .function h, List.forall_mem_append.mpr ⟨hread hi, hread ho⟩⟩
  | struct =>
    obtain ⟨-, -, h⟩ := bind_eq_ok_iff.mp h
    obtain ⟨name, -, h⟩ := bind_eq_ok_iff.mp h
    obtain ⟨inputs, hi, h⟩ := bind_eq_ok_iff.mp h
    exact ⟨inputs, .struct h, hread hi⟩

theorem exists_kind_of_ofObject {o : DeclarationObject} {d : Declaration} (h : ofObject o = .ok d) :
    ∃ kind, ofObjectAs kind o = .ok d := by
  rw [ofObject] at h
  split at h
  next kind _ => exact ⟨kind, h⟩
  next => cases h

theorem constructed_of_ofObject {o : DeclarationObject} {d : Declaration}
    (h : ofObject o = .ok d) : d.Constructed := by
  obtain ⟨kind, h⟩ := exists_kind_of_ofObject h
  obtain ⟨ps, hps, -⟩ := madeOf_of_ofObjectAs h
  exact hps.constructed

theorem constructed_of_ofJson {j : Json} {d : Declaration} (h : ofJson j = .ok d) :
    d.Constructed := by
  rw [ofJson] at h
  split at h
  · exact constructed_of_ofObject h
  · cases h

/-- There is no way around the constructors for a declaration that is read. -/
theorem constructed_of_parse {text : String} {d : Declaration} (h : parse text = .ok d) :
    d.Constructed := by
  rw [parse] at h
  split at h
  · rw [ofJsonText] at h
    split at h
    · exact constructed_of_ofObject h
    · cases h
  · obtain ⟨tokens, -, hd⟩ := ofSignature_eq_ok.mp h
    exact constructed_of_declares hd

end Declaration

/-- Whatever has no flags inside tuples is read from the JSON value that it is written as. -/
theorem json_round_trip :
    (∀ p : Param, p.type.Unflagged → Param.ofJson p.indexed.isSome p.toJson = .ok p) ∧
      ∀ d : Declaration, d.Constructed → (∀ p ∈ d.inputs ++ d.outputs, p.type.Unflagged) →
        Declaration.ofJson d.toJson = .ok d :=
  ⟨fun _ h => Param.ofJson_toJson h, fun _ hd hu => Declaration.ofJson_toJson hd hu⟩

theorem json_round_trip_nested :
    Param.ofJson true (Param.toJson ⟨none, some true, .array (.tuple []) none⟩) =
      .ok ⟨none, some true, .array (.tuple []) none⟩ ∧
    Declaration.ofJson (Declaration.toJson (.constructor
        [⟨some ⟨"a", by decide⟩, none, .array (.array (.tuple []) none) (some 2)⟩] true
        (some UInt64.size))) =
      .ok (.constructor [⟨some ⟨"a", by decide⟩, none, .array (.array (.tuple []) none) (some 2)⟩]
        true (some UInt64.size)) :=
  ⟨json_round_trip.1 ⟨none, some true, .array (.tuple []) none⟩
      (by simp [Ty.Unflagged, Param.AllUnflagged]),
    json_round_trip.2 _
      (.constructor (Declaration.mkConstructor_eq (by simp) true (some UInt64.size)))
      (by simp [Declaration.inputs, Declaration.outputs, Ty.Unflagged, Param.AllUnflagged])⟩

end ContractAbi
