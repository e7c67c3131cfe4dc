import ContractAbi.Param.Basic

/-!
Declarations of a contract's interface, with constructors that check what they are given.
-/

namespace ContractAbi

inductive Declaration where
  | constructor (inputs : List Param) (payable : Bool) (gas : Option Nat)
  | error (name : Identifier) (inputs : List Param)
  | event (name : Identifier) (inputs : List Param) (anonymous : Bool)
  | fallback (payable : Bool)
  | receive
  | function (name : Identifier) (mutability : Mutability) (inputs outputs : List Param)
      (gas : Option Nat)
  | struct (name : Identifier) (inputs : List Param)
deriving DecidableEq

namespace Declaration

def kind : Declaration → Kind
  | constructor .. => .constructor
  | error .. => .error
  | event .. => .event
  | fallback _ => .fallback
  | receive => .fallback
  | function .. => .function
  | struct .. => .struct

/-- The word that opens the declaration. -/
def word : Declaration → String
  | receive => "receive"
  | d => d.kind.name

def name? : Declaration → Option Identifier
  | error name _ | event name _ _ | function name _ _ _ _ | struct name _ => some name
  | constructor .. | fallback _ | receive => none

/-- A fallback takes the call as it came, as one byte string. -/
def inputs : Declaration → List Param
  | constructor inputs _ _ | error _ inputs | event _ inputs _ | function _ _ inputs _ _
  | struct _ inputs => inputs
  | fallback _ => [.ofType (.elementary .bytes)]
  | receive => []

def outputs : Declaration → List Param
  | function _ _ _ outputs _ => outputs
  | _ => []

def nameFor (kind : Kind) (text : String) : Except Error Identifier :=
  match Identifier.ofString? text with
  | some name => .ok name
  | none => .error (.argument (.declarationName kind text))

/-- Parameters that must not be indexed, without their flags. -/
def unindexed (params : List Param) : Except Error (List Param) :=
  match params.find? Param.isIndexed with
  | some p => .error (.unsupported (.indexedParameter p.nameText))
  | none => .ok (params.map fun p => { p with indexed := none })

/-- Inputs of an event all carry a flag. -/
def flagged (params : List Param) : List Param :=
  params.map fun p => { p with indexed := some (p.indexed.getD false) }

def mkConstructor (inputs : List Param) (payable : Bool) (gas : Option Nat) :
    Except Error Declaration := do
  return constructor (← unindexed inputs) payable gas

def mkError (name : String) (inputs : List Param) : Except Error Declaration := do
  let inputs ← unindexed inputs
  return error (← nameFor .error name) inputs

def mkEvent (name : String) (inputs : List Param) (anonymous : Bool) :
    Except Error Declaration := do
  return event (← nameFor .event name) (flagged inputs) anonymous

def mkFunction (name : String) (mutability : Mutability) (inputs outputs : List Param)
    (gas : Option Nat) : Except Error Declaration := do
  let inputs ← unindexed inputs
  let outputs ← unindexed outputs
  return function (← nameFor .function name) mutability inputs outputs gas

def mkStruct (name : String) (inputs : List Param) : Except Error Declaration := do
  let inputs ← unindexed inputs
  return struct (← nameFor .struct name) inputs

end Declaration

end ContractAbi
