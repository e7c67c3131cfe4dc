import ContractAbi.Declaration.Signature
import ContractAbi.Param.Object

/-!
Reading declarations from JSON objects, in the present form and in the older one that has flags in
the place of a mutability.
-/

namespace ContractAbi

structure DeclarationObject where
  type : Option String
  name : Option String
  inputs : Option (List ParamObject)
  outputs : Option (List ParamObject)
  stateMutability : Option Mutability
  anonymous : Option Bool
  constant : Option Bool
  payable : Option Bool
  gas : Option Json

namespace DeclarationObject

def keys : List String :=
  ["type", "name", "inputs", "outputs", "stateMutability", "anonymous", "constant", "payable",
    "gas"]

/-- A mutability is written as its name, or as an object with the name for its only key and null
under it. -/
def mutabilityOf? (limit : Nat) : Json.Source → Option Mutability
  | .str (some name) => Mutability.ofName? name
  | .obj [(some name, .null)] => if limit = 0 then none else Mutability.ofName? name
  | _ => none

def ofSource? : (limit : Nat) → Json.Source → Option DeclarationObject
  | 0, _ => none
  | limit + 1, source => do
    let fields ← source.fields? keys
    let params := Json.Source.optional? (ParamObject.listOfSource? limit)
    let flag := Json.Source.optional? Json.Source.bool?
    let type ← Json.Source.optional? Json.Source.str? "type" fields
    let name ← Json.Source.optional? Json.Source.str? "name" fields
    let inputs ← params "inputs" fields
    let outputs ← params "outputs" fields
    let stateMutability ←
      Json.Source.optional? (mutabilityOf? limit) "stateMutability" fields
    let anonymous ← flag "anonymous" fields
    let constant ← flag "constant" fields
    let payable ← flag "payable" fields
    let gas ← Json.Source.optional? (Json.Source.toJson? limit) "gas" fields
    return { type, name, inputs, outputs, stateMutability, anonymous, constant, payable, gas }

def ofText? (text : String) : Option DeclarationObject :=
  (Json.Source.ofText? text).bind (ofSource? Json.maxNesting)

/-- A value in hand may nest as deep as it does. -/
def ofJson? (j : Json) : Option DeclarationObject :=
  let source := j.toSource
  ofSource? source.nesting source

/-- An object that does not say what it declares declares a function. -/
def typeText (o : DeclarationObject) : String := o.type.getD "function"

def checkType (o : DeclarationObject) (kind : Declaration.Kind) : Except Error Unit :=
  if kind.words.contains o.typeText then .ok ()
  else .error (.argument (.declarationType kind.words o.typeText))

def requiredName (o : DeclarationObject) : Except Error String :=
  match o.name with
  | some name => .ok name
  | none => .error (.argument .noName)

/-- The stated mutability, else what the flags say. -/
def mutability (o : DeclarationObject) : Except Error Mutability :=
  match o.stateMutability with
  | some m => .ok m
  | none =>
    match o.constant.getD false, o.payable.getD false with
    | true, true => .error (.argument .constantPayable)
    | true, false => .ok .view
    | false, true => .ok .payable
    | false, false => .ok .nonpayable

/-- A text of decimal digits, or of hexadecimal ones after `0x`. -/
def gasOfText? (text : List Char) : Option Nat :=
  match text with
  | '0' :: 'x' :: digits => Text.grouped? 16 digits
  | digits => Text.decimal? digits

def gasOf? : Json → Option Nat
  | .num (.int n) => if 0 ≤ n ∧ n < UInt64.size then some n.toNat else none
  | .str text => gasOfText? text.toList
  | _ => none

def gasAmount (o : DeclarationObject) : Except Error (Option Nat) :=
  match o.gas with
  | none => .ok none
  | some j =>
    match gasOf? j with
    | some n => .ok (some n)
    | none => .error (.argument (.gas j))

def params (indexable : Bool) (objects : Option (List ParamObject)) : Except Error (List Param) :=
  (objects.getD []).mapM (Param.ofObject indexable)

end DeclarationObject

namespace Declaration

def constructorOfObject (o : DeclarationObject) : Except Error Declaration := do
  o.checkType .constructor
  let payable ← match ← o.mutability with
    | .payable => pure true
    | .nonpayable => pure false
    | m => throw (.argument (.constructorMutability m))
  let inputs ← DeclarationObject.params false o.inputs
  mkConstructor inputs payable (← o.gasAmount)

def errorOfObject (o : DeclarationObject) : Except Error Declaration := do
  o.checkType .error
  let name ← o.requiredName
  mkError name (← DeclarationObject.params false o.inputs)

def structOfObject (o : DeclarationObject) : Except Error Declaration := do
  o.checkType .struct
  let name ← o.requiredName
  mkStruct name (← DeclarationObject.params false o.inputs)

def eventOfObject (o : DeclarationObject) : Except Error Declaration := do
  o.checkType .event
  let name ← o.requiredName
  mkEvent name (← DeclarationObject.params true o.inputs) (o.anonymous.getD false)

def functionOfObject (o : DeclarationObject) : Except Error Declaration := do
  o.checkType .function
  let name ← o.requiredName
  let mutability ← o.mutability
  let inputs ← DeclarationObject.params false o.inputs
  let outputs ← DeclarationObject.params false o.outputs
  mkFunction name mutability inputs outputs (← o.gasAmount)

/-- The flags of the older form do not count for `receive`; inputs and outputs count for neither. -/
def fallbackOfObject (o : DeclarationObject) : Except Error Declaration := do
  o.checkType .fallback
  if o.typeText = "receive" then
    match o.stateMutability.getD .payable with
    | .payable => return receive
    | m => throw (.argument (.receiveMutability m))
  else
    match ← o.mutability with
    | .payable => return fallback true
    | .nonpayable => return fallback false
    | m => throw (.argument (.fallbackMutability m))

def ofObjectAs : Kind → DeclarationObject → Except Error Declaration
  | .constructor => constructorOfObject
  | .error => errorOfObject
  | .event => eventOfObject
  | .fallback => fallbackOfObject
  | .function => functionOfObject
  | .struct => structOfObject

def ofObject (o : DeclarationObject) : Except Error Declaration :=
  match Kind.all.find? (·.words.contains o.typeText) with
  | some kind => ofObjectAs kind o
  | none => .error (.unsupported (.declarationType o.typeText))

def ofJsonText (text : String) : Except Error Declaration :=
  match DeclarationObject.ofText? text with
  | some o => ofObject o
  | none => .error .json

def ofJson (j : Json) : Except Error Declaration :=
  match DeclarationObject.ofJson? j with
  | some o => ofObject o
  | none => .error .json

/-- Signature text, or a JSON object if the text begins with a brace. -/
def parse (text : String) : Except Error Declaration :=
  if (Text.trimStart text.toList).head? = some '\x7b' then ofJsonText text else ofSignature text

end Declaration

end ContractAbi
