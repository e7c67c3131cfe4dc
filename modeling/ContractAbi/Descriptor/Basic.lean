import ContractAbi.Param.Basic

/-!
Descriptors of parameters, with the canonical text of the type kept beside its shape at every level.
Nothing in the form of a descriptor ties the text to the shape, or the name to identifiers; only the
ways to construct one do.
-/

namespace ContractAbi

mutual

structure Descriptor where
  name : String
  type : String
  indexed : Option Bool
  shape : Shape

inductive Shape where
  | basic
  | tuple (components : List Descriptor)
  | array (element : Descriptor) (length : Option UInt64)

end

/-- The canonical spelling of an elementary type. -/
def Elementary.verify (word : String) : Except Error String :=
  match ofString word with
  | .ok type => .ok type.text
  | .error fault => .error (.argument (.elementary fault word))

namespace Descriptor

def basic (word : String) : Except Error Descriptor := do
  let type ← Elementary.verify word
  return ⟨"", type, none, .basic⟩

def tuple (components : List Descriptor) : Descriptor :=
  ⟨"", "tuple(" ++ ",".intercalate (components.map type) ++ ")", none, .tuple components⟩

/-- The name and the flag of the element are dropped. -/
def array (element : Descriptor) (length : Option UInt64) : Descriptor :=
  ⟨"", element.type ++ arraySuffix length, none,
    .array { element with name := "", indexed := none } length⟩

def withName (d : Descriptor) (text : String) : Except Error Descriptor :=
  if text = "" ∨ isIdentifier text then .ok { d with name := text }
  else .error (.argument (.parameterName text))

def withIndexed (d : Descriptor) (indexed : Bool) : Descriptor := { d with indexed := some indexed }

end Descriptor

end ContractAbi
