import ContractAbi.Param.Basic
import ContractAbi.Style

/-!
Writing parameters, as signature text in one of three styles or as JSON.
-/

namespace ContractAbi

/-- What stands before the parenthesis of a tuple. -/
def Style.tupleWord : Style → String
  | .sighash => ""
  | _ => "tuple"

def Style.separator : Style → String
  | .full => ", "
  | _ => ","

/-- What follows the type of a parameter. -/
def Style.label (style : Style) (name : Option Identifier) (indexed : Option Bool) : String :=
  let flag := if indexed = some true then " indexed" else ""
  match style, name with
  | .sighash, _ => ""
  | .full, some name => flag ++ " " ++ name.text
  | _, _ => flag

mutual

/-- The signature text of a type. -/
def Ty.signature (style : Style) : Ty → String
  | .elementary type => type.text
  | .tuple components =>
    style.tupleWord ++ "(" ++ style.separator.intercalate (Param.signatures style components) ++ ")"
  | .array element length => element.signature style ++ arraySuffix length

def Param.signatures (style : Style) : List Param → List String
  | [] => []
  | ⟨name, indexed, type⟩ :: rest =>
    (type.signature style ++ style.label name indexed) :: Param.signatures style rest

end

def Param.signature (style : Style) (p : Param) : String :=
  p.type.signature style ++ style.label p.name p.indexed

/-- The word for a type in JSON, where the components of a tuple stand apart from it. -/
def Ty.jsonWord : Ty → String
  | .elementary type => type.text
  | .tuple _ => "tuple"
  | .array element length => element.jsonWord ++ arraySuffix length

/-- The members of a parameter's object, of which `components` come with tuples and arrays of
tuples. -/
def Param.jsonMembers (name : Option Identifier) (indexed : Option Bool) (word : String)
    (components : Option Json) : List (String × Json) :=
  (components.map (("components", ·))).toList ++
    (indexed.map fun b => ("indexed", .bool b)).toList ++
    [("name", .str (name.elim "" Identifier.text)), ("type", .str word)]

mutual

def Ty.jsonComponents : Ty → Option Json
  | .elementary _ => none
  | .tuple components => some (.arr (Param.toJsonList components))
  | .array element _ => element.jsonComponents

def Param.toJsonList : List Param → List Json
  | [] => []
  | ⟨name, indexed, type⟩ :: rest =>
    .obj (Param.jsonMembers name indexed type.jsonWord type.jsonComponents) ::
      Param.toJsonList rest

end

def Param.toJson (p : Param) : Json :=
  .obj (Param.jsonMembers p.name p.indexed p.type.jsonWord p.type.jsonComponents)

def Param.print (style : Style) (p : Param) : String :=
  match style with
  | .json => p.toJson.text
  | style => p.signature style

/-- Parameters in parentheses. -/
def Param.printList (style : Style) (ps : List Param) : String :=
  "(" ++ style.separator.intercalate (ps.map (Param.print style)) ++ ")"

end ContractAbi
