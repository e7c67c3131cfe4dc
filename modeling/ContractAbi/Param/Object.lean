import ContractAbi.Json.Read
import ContractAbi.Param.Signature

/-!
Reading parameters from JSON objects. The objects are records of their fields first; only when a
whole document has been read are the types and names in it looked at.
-/

namespace ContractAbi

structure ParamObject where
  name : Option String
  type : String
  indexed : Option Bool
  components : Option (List ParamObject)

namespace ParamObject

def keys : List String := ["name", "type", "indexed", "components"]

mutual

/-- An object takes one level of nesting off, and so does a list of objects. -/
def ofSource? : (limit : Nat) → Json.Source → Option ParamObject
  | 0, _ => none
  | limit + 1, source => do
    let fields ← source.fields? keys
    let name ← Json.Source.optional? Json.Source.str? "name" fields
    let type ← (fields.lookup "type").bind Json.Source.str?
    let indexed ← Json.Source.optional? Json.Source.bool? "indexed" fields
    let components ← Json.Source.optional? (listOfSource? limit) "components" fields
    return { name, type, indexed, components }

def listOfSource? : (limit : Nat) → Json.Source → Option (List ParamObject)
  | limit + 1, .arr items => items.mapM (ofSource? limit)
  | _, _ => none

end

def ofText? (text : String) : Option ParamObject :=
  (Json.Source.ofText? text).bind (ofSource? Json.maxNesting)

/-- A value in hand may nest as deep as it does. -/
def ofJson? (j : Json) : Option ParamObject :=
  let source := j.toSource
  ofSource? source.nesting source

end ParamObject

namespace Ty

/-- The length in an array suffix; `type` is the whole text, for the fault. -/
def suffixLength (type : String) (digits : List Char) : Except Error (Option UInt64) :=
  if digits = [] then .ok none
  else
    match Text.word64? digits with
    | some length => .ok (some length)
    | none => .error (.argument (.arrayLength type))

/-- Takes the array suffixes off a text that is given backward: first the last one, and blanks
before it. Inside brackets, `inside` holds the text that they end and what has been read of them.
The lengths come out in the order in which they are written. -/
def splitBackward (inside : Option (List Char × List Char)) :
    List Char → Except Error (List Char × List (Option UInt64))
  | [] =>
    match inside with
    | none => .ok ([], [])
    | some (type, _) => .error (.argument (.arrayType (String.ofList type)))
  | c :: before =>
    match inside with
    | none =>
      if Text.isBlank c then splitBackward none before
      else if c = ']' then splitBackward (some ((c :: before).reverse, [])) before
      else .ok ((c :: before).reverse, [])
    | some (type, digits) =>
      if c = '[' then do
        let length ← suffixLength (String.ofList type) digits
        let (base, lengths) ← splitBackward none before
        return (base, lengths ++ [length])
      else splitBackward (some (type, c :: digits)) before

/-- A type text without its array suffixes, and their lengths. -/
def splitSuffixes (text : List Char) : Except Error (List Char × List (Option UInt64)) :=
  splitBackward none (Text.trim text).reverse

/-- Whether a text stands for a tuple: by the word alone, or with the components spelled out. -/
def isTupleText (text : String) : Bool :=
  text == "tuple" || "tuple(".toList.isPrefixOf text.toList || "(".toList.isPrefixOf text.toList

/-- A type text without array suffixes. Components that stand apart win over those in the text. -/
def ofBase (text : String) (components : Option (List Param)) : Except Error Ty :=
  if isTupleText text then
    match components with
    | some ps => .ok (.tuple ps)
    | none =>
      if text = "tuple" then .error (.argument .noComponents)
      else (Param.ofSignature false text).map Param.type
  else (Param.elementary text).map Param.type

/-- A type text with the readings of the components that stand apart from it; what is wrong with
those matters only if the text stands for a tuple. -/
def ofText (text : String) (components : Option (Except Error (List Param))) : Except Error Ty := do
  let (base, lengths) ← splitSuffixes text.toList
  let base := String.ofList base
  let components ← if isTupleText base then components.mapM id else pure none
  let head ← ofBase base components
  return lengths.foldl array head

end Ty

namespace Param

/-- The indexed flag of a parameter, given the one in its object. -/
def flagOf (indexable : Bool) (indexed : Option Bool) : Except Error (Option Bool) :=
  if indexable then .ok (some (indexed.getD false))
  else if indexed = some true then .error (.unsupported .indexed)
  else .ok none

def assemble (indexable : Bool) (name : Option String) (indexed : Option Bool)
    (type : Except Error Ty) : Except Error Param := do
  let type ← type
  let name ← nameOf (name.getD "")
  let indexed ← flagOf indexable indexed
  return ⟨name, indexed, type⟩

mutual

def ofObject (indexable : Bool) : ParamObject → Except Error Param
  | ⟨name, type, indexed, components⟩ =>
    assemble indexable name indexed (Ty.ofText type (ofComponents components))

def ofComponents : Option (List ParamObject) → Option (Except Error (List Param))
  | none => none
  | some objects => some (ofObjects objects)

def ofObjects : List ParamObject → Except Error (List Param)
  | [] => .ok []
  | object :: rest => do
    let p ← ofObject false object
    let ps ← ofObjects rest
    return p :: ps

end

def ofJsonText (indexable : Bool) (text : String) : Except Error Param :=
  match ParamObject.ofText? text with
  | some object => ofObject indexable object
  | none => .error .json

def ofJson (indexable : Bool) (j : Json) : Except Error Param :=
  match ParamObject.ofJson? j with
  | some object => ofObject indexable object
  | none => .error .json

/-- Signature text, or a JSON object if the text begins with a brace. -/
def parse (indexable : Bool) (text : String) : Except Error Param :=
  if (Text.trimStart text.toList).head? = some '\x7b' then ofJsonText indexable text
  else ofSignature indexable text

end Param

end ContractAbi
