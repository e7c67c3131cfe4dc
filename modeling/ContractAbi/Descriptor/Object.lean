import ContractAbi.Descriptor.Signature
import ContractAbi.Param.Object

/-!
Reading descriptors from JSON objects, in which a type's text and its components stand side by side.
-/

namespace ContractAbi.Descriptor

/-- A type text without array suffixes. Components that stand apart win over those in the text. -/
def ofBase (text : String) (components : Option (List Descriptor)) : Except Error Descriptor :=
  if Ty.isTupleText text then
    match components with
    | some ds => .ok (tuple ds)
    | none =>
      if text = "tuple" then .error (.argument .noComponents) else ofSignature false text
  else basic text

/-- A type text without array suffixes, with the readings of the components that stand apart. -/
def headOf (base : String) (components : Option (Except Error (List Descriptor))) :
    Except Error Descriptor := do
  let components ← if Ty.isTupleText base then components.mapM id else pure none
  ofBase base components

def ofText (text : String) (components : Option (Except Error (List Descriptor))) :
    Except Error Descriptor := do
  let (base, lengths) ← Ty.splitSuffixes text.toList
  let head ← headOf (String.ofList base) components
  return lengths.foldl array head

def assemble (indexable : Bool) (name : Option String) (indexed : Option Bool)
    (d : Except Error Descriptor) : Except Error Descriptor := do
  let d ← (← d).withName (name.getD "")
  return (← Param.flagOf indexable indexed).elim d d.withIndexed

mutual

def ofObject (indexable : Bool) : ParamObject → Except Error Descriptor
  | ⟨name, type, indexed, components⟩ =>
    assemble indexable name indexed (ofText type (ofComponents components))

def ofComponents : Option (List ParamObject) → Option (Except Error (List Descriptor))
  | none => none
  | some objects => some (ofObjects objects)

def ofObjects : List ParamObject → Except Error (List Descriptor)
  | [] => .ok []
  | object :: rest => do
    let d ← ofObject false object
    let ds ← ofObjects rest
    return d :: ds

end

def ofJsonText (indexable : Bool) (text : String) : Except Error Descriptor :=
  match ParamObject.ofText? text with
  | some object => ofObject indexable object
  | none => .error .json

def ofJson (indexable : Bool) (j : Json) : Except Error Descriptor :=
  match ParamObject.ofJson? j with
  | some object => ofObject indexable object
  | none => .error .json

/-- Signature text, or a JSON object if the text begins with a brace. -/
def parse (indexable : Bool) (text : String) : Except Error Descriptor :=
  if (Text.trimStart text.toList).head? = some '\x7b' then ofJsonText indexable text
  else ofSignature indexable text

end ContractAbi.Descriptor
