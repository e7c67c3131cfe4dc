import ContractAbi.Json.Basic
import ContractAbi.Text.Quote

/-!
The values that parameters take: integers of any size, texts, sequences and keyed records. The
fields of a record are kept in increasing order of their keys.
-/

namespace ContractAbi

inductive Value where
  | null
  | bool (b : Bool)
  | int (n : Int)
  | str (s : String)
  | arr (items : List Value)
  | obj (fields : List (String × Value))

namespace Value

def typeName : Value → String
  | null => "Null"
  | bool _ => "Boolean"
  | int _ => "Integer"
  | str _ => "String"
  | arr _ => "Array"
  | obj _ => "Object"

mutual

def display : Value → String
  | null => "null"
  | bool b => if b then "true" else "false"
  | int n => n.repr
  | str s => Text.quote s
  | arr items => "[" ++ ", ".intercalate (displayItems items) ++ "]"
  | obj fields => "\x7b" ++ ", ".intercalate (displayFields fields) ++ "\x7d"

def displayItems : List Value → List String
  | [] => []
  | v :: rest => v.display :: displayItems rest

def displayFields : List (String × Value) → List String
  | [] => []
  | (key, v) :: rest => (Text.quote key ++ ": " ++ v.display) :: displayFields rest

end

/-- Numbers that are not integers have no meaning here and are kept as their text. -/
def ofNumber : Json.Number → Value
  | .int n => int n
  | x => str (String.ofList x.chars)

mutual

def ofJson : Json → Value
  | .null => null
  | .bool b => bool b
  | .num n => ofNumber n
  | .str s => str s
  | .arr items => arr (ofJsonItems items)
  | .obj members => obj (ofJsonMembers members)

def ofJsonItems : List Json → List Value
  | [] => []
  | j :: rest => ofJson j :: ofJsonItems rest

def ofJsonMembers : List (String × Json) → List (String × Value)
  | [] => []
  | (key, j) :: rest => (key, ofJson j) :: ofJsonMembers rest

end

/-- Integers of more than 64 bits, the sign among them, become decimal texts. -/
def intToJson (n : Int) : Json :=
  if Int64.minValue.toInt ≤ n ∧ n ≤ Int64.maxValue.toInt then .num (.int n) else .str n.repr

mutual

def toJson : Value → Json
  | null => .null
  | bool b => .bool b
  | int n => intToJson n
  | str s => .str s
  | arr items => .arr (toJsonItems items)
  | obj fields => .obj (toJsonFields fields)

def toJsonItems : List Value → List Json
  | [] => []
  | v :: rest => v.toJson :: toJsonItems rest

def toJsonFields : List (String × Value) → List (String × Json)
  | [] => []
  | (key, v) :: rest => (key, v.toJson) :: toJsonFields rest

end

/-- The value under a key of a record. -/
def field? (fields : List (String × Value)) (key : String) : Option Value := fields.lookup key

end Value

end ContractAbi
