import ContractAbi.Descriptor.Basic
import ContractAbi.Param.Print

/-!
Writing descriptors as signature text. Of the texts that they hold only those of elementary types
are written; all others are made anew from the shape.
-/

namespace ContractAbi

/-- What follows the type of a descriptor; its name is empty if it has none. -/
def Style.labelOf (style : Style) (name : String) (indexed : Option Bool) : String :=
  let flag := if indexed = some true then " indexed" else ""
  match style with
  | .sighash => ""
  | .full => flag ++ if name = "" then "" else " " ++ name
  | _ => flag

mutual

/-- The signature text of a shape beside which `type` is held. -/
def Shape.signature (style : Style) (type : String) : Shape → String
  | .basic => type
  | .tuple components =>
    style.tupleWord ++ "(" ++ style.separator.intercalate (Descriptor.signatures style components) ++
      ")"
  | .array ⟨_, type, _, shape⟩ length => shape.signature style type ++ arraySuffix length

def Descriptor.signatures (style : Style) : List Descriptor → List String
  | [] => []
  | ⟨name, type, indexed, shape⟩ :: rest =>
    (shape.signature style type ++ style.labelOf name indexed) :: Descriptor.signatures style rest

end

def Descriptor.signature (style : Style) (d : Descriptor) : String :=
  d.shape.signature style d.type ++ style.labelOf d.name d.indexed

end ContractAbi
