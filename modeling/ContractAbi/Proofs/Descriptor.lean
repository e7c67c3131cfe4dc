import ContractAbi.Descriptor.Object
import ContractAbi.Proofs.Signature
import ContractAbi.Proofs.TypeText
import Mathlib.Data.Set.List

/-!
Every way to construct or read a descriptor yields the descriptor of a parameter, and those are
canonical at each of their nodes.
-/

namespace ContractAbi

mutual

def Ty.shape : Ty → Shape
  | .elementary _ => .basic
  | .tuple components => .tuple (Param.descriptors components)
  | .array element length => .array ⟨"", element.text, none, element.shape⟩ length

def Param.descriptors : List Param → List Descriptor
  | [] => []
  | ⟨name, indexed, type⟩ :: rest =>
    ⟨name.elim "" Identifier.text, type.text, indexed, type.shape⟩ :: Param.descriptors rest

end

def Param.descriptor (p : Param) : Descriptor := ⟨p.nameText, p.type.text, p.indexed, p.type.shape⟩

theorem Param.descriptors_eq (ps : List Param) :
    Param.descriptors ps = ps.map Param.descriptor := by
  induction ps with
  | nil => rfl
  | cons p rest ih =>
    obtain ⟨name, indexed, type⟩ := p
    rw [Param.descriptors, ih]
    rfl

def Ty.descriptor (t : Ty) : Descriptor := (Param.ofType t).descriptor

namespace Descriptor

theorem basic_eq (word : String) :
    basic word = (Param.elementary word).map fun p => p.type.descriptor := by
  rw [basic, Elementary.verify, Param.elementary]
  cases Elementary.ofString word <;> rfl

theorem types_eq (ps : List Param) :
    (ps.map Param.descriptor).map type = Param.typeTexts ps := by
  induction ps with
  | nil => rfl
  | cons p rest ih =>
    obtain ⟨name, indexed, type⟩ := p
    rw [List.map_cons, List.map_cons, ih]
    rfl

theorem tuple_eq (ps : List Param) :
    tuple (ps.map Param.descriptor) = (Ty.tuple ps).descriptor := by
  rw [tuple, types_eq, ← Param.descriptors_eq]
  rfl

theorem foldl_array_eq (lengths : List (Option UInt64)) (t : Ty) :
    lengths.foldl array t.descriptor = (lengths.foldl Ty.array t).descriptor := by
  induction lengths generalizing t with
  | nil => rfl
  | cons length rest ih => exact ih (.array t length)

theorem withName_eq (p : Param) (text : String) :
    p.descriptor.withName text =
      (Param.nameOf text).map fun name => Param.descriptor { p with name } := by
  rw [withName, Param.nameOf, Identifier.ofString?]
  by_cases he : text = ""
  · subst he
    rfl
  · by_cases hi : isIdentifier text = true
    · rw [if_pos (.inr hi), if_neg he, dif_pos hi]
      rfl
    · rw [if_neg (not_or.mpr ⟨he, hi⟩), if_neg he, dif_neg hi]
      rfl

theorem liftExcept_map {α β : Type} (f : α → β) (x : Except Error α) :
    Reader.liftExcept (x.map f) = f <$> Reader.liftExcept x := by
  cases x <;> rfl

theorem headWith_eq (components : Reader (List Param)) :
    headWith (List.map Param.descriptor <$> components) =
      Ty.descriptor <$> Reader.headWith components := by
  rw [headWith, Reader.headWith, map_bind]
  refine bind_congr fun worded => ?_
  rw [map_bind]
  refine bind_congr fun c => ?_
  split
  next => rw [Functor.map_map, Functor.map_map, funext tuple_eq]
  next =>
    rw [Reader.elementaryType, map_bind]
    refine bind_congr fun word => ?_
    rw [basic_eq, liftExcept_map, map_bind, map_eq_pure_bind]
    rfl

theorem elim_withIndexed (t : Ty) (indexed : Option Bool) :
    indexed.elim t.descriptor t.descriptor.withIndexed =
      (⟨none, indexed, t⟩ : Param).descriptor := by
  cases indexed <;> rfl

theorem named_eq (indexed : Option Bool) (t : Ty) :
    named (⟨none, indexed, t⟩ : Param).descriptor =
      (fun name => (⟨name, indexed, t⟩ : Param).descriptor) <$> Reader.optionalName := by
  rw [named, Reader.optionalName, map_bind]
  refine bind_congr fun c => ?_
  cases c.peekKind? .identifier with
  | none => rfl
  | some text =>
    change (Reader.skip 1 >>= fun _ => Reader.liftExcept (Descriptor.withName _ text)) =
      _ <$> (Reader.skip 1 >>= fun _ => Reader.liftExcept (Param.nameOf text))
    rw [map_bind]
    refine bind_congr fun _ => ?_
    rw [← liftExcept_map]
    exact congrArg Reader.liftExcept (withName_eq ⟨none, indexed, t⟩ text)

theorem descriptorWith_eq (components : Reader (List Param)) (indexable : Bool) :
    descriptorWith (List.map Param.descriptor <$> components) indexable =
      Param.descriptor <$> Reader.parameterWith components indexable := by
  rw [descriptorWith, Reader.parameterWith, headWith_eq, bind_map_left, map_bind]
  refine bind_congr fun head => ?_
  rw [map_bind]
  refine bind_congr fun lengths => ?_
  rw [map_bind]
  refine bind_congr fun indexed => ?_
  rw [foldl_array_eq, elim_withIndexed, named_eq, bind_map_left, map_bind]
  refine bind_congr fun name => ?_
  rw [map_bind]
  rfl

theorem within_map {α β : Type} (f : α → β) (c : Cursor) (r : Reader α) :
    Reader.within c (f <$> r) = f <$> Reader.within c r := by
  rw [Reader.within, Reader.within]
  cases h : r.run c with
  | ok a c' => rw [run_map_of_ok h, map_pure]
  | error e c' =>
    rw [run_map_of_error h]
    rfl

theorem descriptorWithin_eq (depth : Nat) (indexable : Bool) :
    descriptorWithin depth indexable =
      Param.descriptor <$> Reader.parameterWithin depth indexable := by
  induction depth generalizing indexable with
  | zero => rfl
  | succ depth ih =>
    rw [Reader.parameterWithin, ← descriptorWith_eq, descriptorWithin, Reader.groupOf, map_bind]
    refine congrArg (descriptorWith · indexable) (bind_congr fun items => ?_)
    rw [ih false, ← mapM_map_left]
    exact congrArg items.mapM (funext fun c => within_map Param.descriptor c _)

theorem ofTokens_eq (indexable : Bool) :
    ofTokens indexable = Param.descriptor <$> Reader.parameter indexable := by
  rw [ofTokens, Reader.parameter, map_bind]
  exact bind_congr fun c => descriptorWithin_eq _ indexable

theorem onText_map {α β : Type} (f : α → β) (r : Reader α) (text : String) :
    (f <$> r).onText text = (r.onText text).map f := by
  unfold Reader.onText
  cases Token.scan text with
  | error e => rfl
  | ok tokens =>
    dsimp only [bind, Except.bind]
    cases h : r.run (Cursor.ofTokens tokens) with
    | ok a c => rw [run_map_of_ok h]; rfl
    | error e c => rw [run_map_of_error h]; rfl

theorem ofSignature_eq (indexable : Bool) (text : String) :
    ofSignature indexable text = (Param.ofSignature indexable text).map Param.descriptor := by
  rw [ofSignature, ofTokens_eq, onText_map, Param.ofSignature]

/-- Names that a type text spells out are dropped, or replaced by the name beside the text. -/
def unnamed (d : Descriptor) : Descriptor := { d with name := "" }

theorem unnamed_foldl_array (lengths : List (Option UInt64)) (d : Descriptor) :
    (lengths.foldl array d).unnamed = lengths.foldl array d.unnamed := by
  induction lengths generalizing d with
  | nil => rfl
  | cons length rest ih => exact ih (array d length)

theorem unnamed_basic (text : String) :
    (basic text).map unnamed = ((Param.elementary text).map Param.type).map Ty.descriptor := by
  rw [basic_eq]
  cases Param.elementary text <;> rfl

/-- Without events around it, a text gives its parameter no flag. -/
theorem unnamed_ofSignature (text : String) :
    (ofSignature false text).map unnamed =
      ((Param.ofSignature false text).map Param.type).map Ty.descriptor := by
  rw [ofSignature_eq]
  cases h : Param.ofSignature false text with
  | error e => rfl
  | ok p =>
    obtain ⟨tokens, -, hp⟩ := Param.ofSignature_eq_ok.mp h
    have hi : p.indexed = none := by simpa using hp.isSome_indexed
    exact congrArg Except.ok (congrArg (Descriptor.mk "" p.type.text · p.type.shape) hi)

theorem ofBase_eq (text : String) (components : Option (List Param)) :
    (ofBase text (components.map (List.map Param.descriptor))).map unnamed =
      (Ty.ofBase text components).map Ty.descriptor := by
  by_cases ht : Ty.isTupleText text = true
  · cases components with
    | some ps =>
      rw [Option.map_some, ofBase, Ty.ofBase, if_pos ht, if_pos ht, tuple_eq]
      rfl
    | none =>
      rw [Option.map_none, ofBase, Ty.ofBase, if_pos ht, if_pos ht]
      split
      next => rfl
      next => exact unnamed_ofSignature text
  · rw [ofBase.eq_def, Ty.ofBase.eq_def, if_neg ht, if_neg ht, unnamed_basic]

theorem headOf_eq (base : String) (components : Option (Except Error (List Param))) :
    (headOf base (components.map (Except.map (List.map Param.descriptor)))).map unnamed =
      (Ty.headOf base components).map Ty.descriptor := by
  rw [headOf, Ty.headOf]
  by_cases ht : Ty.isTupleText base = true
  · rw [if_pos ht, if_pos ht]
    cases components with
    | none => exact ofBase_eq base none
    | some read =>
      cases read with
      | error e => rfl
      | ok ps => exact ofBase_eq base (some ps)
  · rw [if_neg ht, if_neg ht]
    exact ofBase_eq base none

theorem ofText_eq (text : String) (components : Option (Except Error (List Param))) :
    (ofText text (components.map (Except.map (List.map Param.descriptor)))).map unnamed =
      (Ty.ofText text components).map Ty.descriptor := by
  rw [ofText, Ty.ofText_eq]
  cases Ty.splitSuffixes text.toList with
  | error e => rfl
  | ok split =>
    obtain ⟨base, lengths⟩ := split
    have h := headOf_eq (String.ofList base) components
    change ((headOf (String.ofList base) _) >>= fun head =>
        pure (lengths.foldl array head)).map unnamed =
      ((Ty.headOf (String.ofList base) components).map fun head =>
        lengths.foldl Ty.array head).map Ty.descriptor
    rcases map_eq_map_iff.mp h with ⟨e, hd, ht⟩ | ⟨d, t, hd, ht, hu⟩
    · rw [hd, ht]
      rfl
    · rw [hd, ht]
      refine congrArg Except.ok ?_
      rw [unnamed_foldl_array, hu, foldl_array_eq]

theorem withName_unnamed (d : Descriptor) (text : String) :
    d.unnamed.withName text = d.withName text := rfl

theorem assemble_eq {indexable : Bool} {name : Option String} {indexed : Option Bool}
    {d : Except Error Descriptor} {type : Except Error Ty}
    (h : d.map unnamed = type.map Ty.descriptor) :
    assemble indexable name indexed d =
      (Param.assemble indexable name indexed type).map Param.descriptor := by
  rcases map_eq_map_iff.mp h with ⟨e, rfl, rfl⟩ | ⟨d, t, rfl, rfl, hu⟩
  · rfl
  · have hn : d.withName (name.getD "") = (Param.nameOf (name.getD "")).map fun name =>
        (⟨name, none, t⟩ : Param).descriptor := by
      rw [← withName_unnamed, hu]
      exact withName_eq (.ofType t) (name.getD "")
    change (d.withName (name.getD "") >>= fun d => do
        return (← Param.flagOf indexable indexed).elim d d.withIndexed) =
      (Param.nameOf (name.getD "") >>= fun name => do
        return ⟨name, ← Param.flagOf indexable indexed, t⟩).map Param.descriptor
    rw [hn]
    cases Param.nameOf (name.getD "") with
    | error e => rfl
    | ok name =>
      cases Param.flagOf indexable indexed with
      | error e => rfl
      | ok indexed => cases indexed <;> rfl

mutual

theorem ofObject_eq (indexable : Bool) : (object : ParamObject) →
    ofObject indexable object = (Param.ofObject indexable object).map Param.descriptor
  | ⟨name, type, indexed, components⟩ => by
    rw [ofObject, Param.ofObject, ofComponents_eq components]
    exact assemble_eq (ofText_eq type _)

theorem ofComponents_eq : (components : Option (List ParamObject)) →
    ofComponents components =
      (Param.ofComponents components).map (Except.map (List.map Param.descriptor))
  | none => rfl
  | some objects => congrArg some (ofObjects_eq objects)

theorem ofObjects_eq : (objects : List ParamObject) →
    ofObjects objects = (Param.ofObjects objects).map (List.map Param.descriptor)
  | [] => rfl
  | object :: rest => by
    rw [ofObjects, Param.ofObjects, ofObject_eq false object, ofObjects_eq rest]
    cases Param.ofObject false object with
    | error e => rfl
    | ok p => cases Param.ofObjects rest <;> rfl

end

theorem ofJsonText_eq (indexable : Bool) (text : String) :
    ofJsonText indexable text = (Param.ofJsonText indexable text).map Param.descriptor := by
  rw [ofJsonText, Param.ofJsonText]
  cases ParamObject.ofText? text with
  | none => rfl
  | some object => exact ofObject_eq indexable object

theorem ofJson_eq (indexable : Bool) (j : Json) :
    ofJson indexable j = (Param.ofJson indexable j).map Param.descriptor := by
  rw [ofJson, Param.ofJson]
  cases ParamObject.ofJson? j with
  | none => rfl
  | some object => exact ofObject_eq indexable object

theorem parse_eq (indexable : Bool) (text : String) :
    parse indexable text = (Param.parse indexable text).map Param.descriptor := by
  rw [parse, Param.parse]
  split
  next => exact ofJsonText_eq indexable text
  next => exact ofSignature_eq indexable text

/-- A node of a descriptor's tree. -/
inductive Node : Descriptor → Descriptor → Prop
  | root (d : Descriptor) : Node d d
  | component {d c n : Descriptor} {components : List Descriptor}
      (shape : d.shape = .tuple components) (mem : c ∈ components) (below : Node c n) : Node d n
  | element {d element n : Descriptor} {length : Option UInt64}
      (shape : d.shape = .array element length) (below : Node element n) : Node d n

/-- The text beside the shape is the one that belongs to it. -/
structure Canonical (d : Descriptor) : Prop where
  basic : d.shape = .basic → Elementary.verify d.type = .ok d.type
  tuple (components : List Descriptor) : d.shape = .tuple components →
    d.type = "tuple(" ++ ",".intercalate (components.map type) ++ ")"
  array (element : Descriptor) (length : Option UInt64) : d.shape = .array element length →
    d.type = element.type ++ (length.elim "[]" fun n => "[" ++ n.toNat.repr ++ "]") ∧
      element.name = "" ∧ element.indexed = none
  name : d.name = "" ∨ isIdentifier d.name = true

/-- What can be had of descriptors: from words, from tokens however they came about, from JSON, from
text, and from each other. -/
inductive Reachable : Descriptor → Prop
  | basic {word : String} {d : Descriptor} (h : Descriptor.basic word = .ok d) : Reachable d
  | tuple {components : List Descriptor} (h : ∀ c ∈ components, Reachable c) :
      Reachable (Descriptor.tuple components)
  | array {element : Descriptor} (h : Reachable element) (length : Option UInt64) :
      Reachable (Descriptor.array element length)
  | withName {d e : Descriptor} {text : String} (hd : Reachable d) (h : d.withName text = .ok e) :
      Reachable e
  | ofTokens {indexable : Bool} {c c' : Cursor} {d : Descriptor}
      (h : (Descriptor.ofTokens indexable).run c = .ok d c') : Reachable d
  | ofObject {indexable : Bool} {object : ParamObject} {d : Descriptor}
      (h : Descriptor.ofObject indexable object = .ok d) : Reachable d
  | ofJson {indexable : Bool} {j : Json} {d : Descriptor}
      (h : Descriptor.ofJson indexable j = .ok d) : Reachable d
  | parse {indexable : Bool} {text : String} {d : Descriptor}
      (h : Descriptor.parse indexable text = .ok d) : Reachable d

theorem nameText_canonical (p : Param) : p.nameText = "" ∨ isIdentifier p.nameText = true := by
  cases hn : p.name with
  | none => exact .inl (by rw [Param.nameText, hn]; rfl)
  | some name => exact .inr (by rw [Param.nameText, hn]; exact name.valid)

theorem canonical_descriptor (p : Param) : p.descriptor.Canonical := by
  obtain ⟨name, indexed, type⟩ := p
  refine ⟨fun hs => ?_, fun components hs => ?_, fun element length hs => ?_,
    nameText_canonical ⟨name, indexed, type⟩⟩
  · cases type with
    | elementary type =>
      change Elementary.verify type.text = .ok type.text
      rw [Elementary.verify, Elementary.ofString_text]
    | tuple components => cases hs
    | array element length => cases hs
  · cases type with
    | elementary type => cases hs
    | tuple ps =>
      obtain rfl := Shape.tuple.inj hs
      rw [Param.descriptors_eq, types_eq]
      rfl
    | array element length => cases hs
  · cases type with
    | elementary type => cases hs
    | tuple components => cases hs
    | array t n =>
      obtain ⟨rfl, rfl⟩ := Shape.array.inj hs
      refine ⟨?_, rfl, rfl⟩
      change t.text ++ arraySuffix n = t.text ++ _
      cases n <;> rfl

theorem exists_param_of_node {p : Param} {d n : Descriptor} (hd : d = p.descriptor)
    (h : Node d n) : ∃ q : Param, n = q.descriptor := by
  induction h generalizing p with
  | root d => exact ⟨p, hd⟩
  | component hs hm _ ih =>
    subst hd
    obtain ⟨name, indexed, type⟩ := p
    cases type with
    | elementary type => cases hs
    | tuple ps =>
      obtain rfl := Shape.tuple.inj hs
      rw [Param.descriptors_eq] at hm
      obtain ⟨q, -, rfl⟩ := List.mem_map.mp hm
      exact ih rfl
    | array element length => cases hs
  | element hs _ ih =>
    subst hd
    obtain ⟨name, indexed, type⟩ := p
    cases type with
    | elementary type => cases hs
    | tuple ps => cases hs
    | array t length =>
      obtain ⟨rfl, rfl⟩ := Shape.array.inj hs
      exact ih (p := .ofType t) rfl

/-- Each way to a descriptor is a way to a parameter. -/
theorem exists_param_of_reachable {d : Descriptor} (h : d.Reachable) :
    ∃ p : Param, d = p.descriptor := by
  induction h with
  | basic h =>
    rw [basic_eq, map_eq_ok_iff] at h
    obtain ⟨p, -, rfl⟩ := h
    exact ⟨.ofType p.type, rfl⟩
  | @tuple components _ ih =>
    have hrange : components ∈ Set.range (List.map Param.descriptor) := by
      rw [Set.range_list_map]
      exact fun c hc => (ih c hc).imp fun _ => Eq.symm
    obtain ⟨ps, rfl⟩ := hrange
    exact ⟨.ofType (.tuple ps), tuple_eq ps⟩
  | array _ length ih =>
    obtain ⟨p, rfl⟩ := ih
    exact ⟨.array p length, rfl⟩
  | withName _ h ih =>
    obtain ⟨p, rfl⟩ := ih
    rw [withName_eq, map_eq_ok_iff] at h
    obtain ⟨name, -, rfl⟩ := h
    exact ⟨{ p with name }, rfl⟩
  | @ofTokens indexable c c' d h =>
    rw [ofTokens_eq] at h
    cases hp : (Reader.parameter indexable).run c with
    | ok p c'' =>
      rw [run_map_of_ok hp] at h
      exact ⟨p, (EStateM.Result.ok.inj h).1.symm⟩
    | error e c'' =>
      rw [run_map_of_error hp] at h
      cases h
  | ofObject h =>
    rw [ofObject_eq, map_eq_ok_iff] at h
    exact h.imp fun _ hp => hp.2.symm
  | ofJson h =>
    rw [ofJson_eq, map_eq_ok_iff] at h
    exact h.imp fun _ hp => hp.2.symm
  | parse h =>
    rw [parse_eq, map_eq_ok_iff] at h
    exact h.imp fun _ hp => hp.2.symm

end Descriptor

/-- Every node of every descriptor that can be had is canonical. -/
theorem canonical_of_reachable {d n : Descriptor} (hd : d.Reachable) (hn : d.Node n) :
    n.Canonical := by
  obtain ⟨p, hp⟩ := Descriptor.exists_param_of_reachable hd
  obtain ⟨q, rfl⟩ := Descriptor.exists_param_of_node hp hn
  exact Descriptor.canonical_descriptor q

/-- The element of an array of what has been read from text, and a component of that. -/
theorem canonical_of_reachable_nested :
    ∃ d element n, Descriptor.parse true "tuple(uint a, bool)[2] indexed x" = .ok d ∧
      (Descriptor.array d none).shape = .array element none ∧ element.Node n ∧
      n.name = "a" ∧ (Descriptor.array d none).Canonical ∧ n.Canonical := by
  let a : Param := ⟨some ⟨"a", rfl⟩, none, .elementary (.uint 31)⟩
  let tuple := Ty.tuple [a, .ofType (.elementary .bool)]
  have hparse : Param.parse true "tuple(uint a, bool)[2] indexed x" =
      .ok ⟨some ⟨"x", rfl⟩, some true, .array tuple (some 2)⟩ :=
    eq_ok_of_toOption (by decide +kernel)
  have hd : Descriptor.parse true "tuple(uint a, bool)[2] indexed x" =
      .ok (⟨some ⟨"x", rfl⟩, some true, .array tuple (some 2)⟩ : Param).descriptor := by
    rw [Descriptor.parse_eq, hparse]
    rfl
  have hn : Descriptor.Node (Ty.array tuple (some 2)).descriptor a.descriptor :=
    .element rfl (.component rfl List.mem_cons_self (.root _))
  exact ⟨_, _, a.descriptor, hd, rfl, hn, rfl,
    canonical_of_reachable (.array (.parse hd) none) (.root _),
    canonical_of_reachable (.array (.parse hd) none) (.element rfl hn)⟩

end ContractAbi
