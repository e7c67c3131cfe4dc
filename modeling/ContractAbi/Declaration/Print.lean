import ContractAbi.Declaration.Basic
import ContractAbi.Param.Print

/-!
Writing declarations, as signature text or as JSON.
-/

namespace ContractAbi.Declaration

def gasWords (gas : Option Nat) : List String := (gas.map fun n => "@" ++ n.repr).toList

def payableWords (payable : Bool) : List String := if payable then ["payable"] else []

def payableMutability (payable : Bool) : Mutability := if payable then .payable else .nonpayable

/-- What follows the name and the inputs in a signature. -/
def tailWords (style : Style) : Declaration → List String
  | constructor _ payable gas => payableWords payable ++ gasWords gas
  | event _ _ anonymous => if anonymous then ["anonymous"] else []
  | function _ mutability _ outputs gas =>
    (if mutability = .nonpayable then [] else [mutability.name]) ++
      (if outputs.isEmpty then [] else ["returns", Param.printList style outputs]) ++ gasWords gas
  | fallback payable => payableWords payable
  | receive => payableWords true
  | error .. | struct .. => []

/-- A signature as it is read, with its names or without. The input of a fallback goes unsaid. -/
def signature (style : Style) (d : Declaration) : String :=
  let head := match d with
    | error name inputs | event name inputs _ | function name _ inputs _ _ | struct name inputs =>
      [d.word, name.text ++ Param.printList style inputs]
    | constructor inputs _ _ => [d.word ++ Param.printList style inputs]
    | fallback _ | receive => [d.word ++ "()"]
  " ".intercalate (head ++ d.tailWords style)

/-- The name and the types of the inputs; declarations without a name have none. -/
def sighash? (d : Declaration) : Option String :=
  d.name?.map fun name => name.text ++ Param.printList .sighash d.inputs

/-- What the sighash is asked of, where there is none. -/
def unnamedText : Declaration → String
  | constructor .. => "a constructor"
  | d => d.word

def sighash (d : Declaration) : Except Error String :=
  match d.sighash? with
  | some text => .ok text
  | none => .error (.unsupported (.sighash d.unnamedText))

def gasMembers (gas : Option Nat) : List (String × Json) :=
  (gas.map fun n => ("gas", Json.str n.repr)).toList

def paramsJson (params : List Param) : Json := .arr (Param.toJsonList params)

def toJson (d : Declaration) : Json :=
  let type := ("type", Json.str d.word)
  .obj <| match d with
    | constructor inputs payable gas =>
      gasMembers gas ++
        [("inputs", paramsJson inputs), ("payable", .bool payable),
          ("stateMutability", .str (payableMutability payable).name), type]
    | error name inputs | struct name inputs =>
      [("inputs", paramsJson inputs), ("name", .str name.text), type]
    | event name inputs anonymous =>
      [("anonymous", .bool anonymous), ("inputs", paramsJson inputs), ("name", .str name.text),
        type]
    | fallback payable => [("stateMutability", .str (payableMutability payable).name), type]
    | receive => [("stateMutability", .str (payableMutability true).name), type]
    | function name mutability inputs outputs gas =>
      ("constant", .bool mutability.isConstant) :: gasMembers gas ++
        [("inputs", paramsJson inputs), ("name", .str name.text), ("outputs", paramsJson outputs),
          ("payable", .bool (mutability == .payable)), ("stateMutability", .str mutability.name),
          type]

def print (style : Style) (d : Declaration) : Except Error String :=
  match style with
  | .sighash => d.sighash
  | .json => .ok d.toJson.text
  | style => .ok (d.signature style)

end ContractAbi.Declaration
