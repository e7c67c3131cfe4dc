import ContractAbi.Param.Basic

/-!
Walking a value along a type: the value's shape is checked, and a transform is applied to what is
found at each elementary type, from left to right. Records become sequences in the order of the
components.
-/

namespace ContractAbi

/-- The elements of an array. -/
def Ty.arrayItems (t : Ty) (length : Option UInt64) (v : Value) : Except Error (List Value) :=
  match v with
  | .arr items =>
    if length.any fun n => n.toNat != items.length then .error (.shape .arrayLength t.text v)
    else .ok items
  | _ => .error (.shape .notArray t.text v)

/-- The values of a tuple's components in a record. -/
def Ty.selectItems (t : Ty) (v : Value) (fields : List (String × Value)) :
    List Param → Except Error (List Value)
  | [] => .ok []
  | p :: rest =>
    match p.name with
    | none => .error (.shape .unnamedComponents t.text v)
    | some name =>
      match Value.field? fields name.text with
      | none => .error (.shape (.missingComponent name.text) t.text v)
      | some item => (t.selectItems v fields rest).map (item :: ·)

/-- The values of a tuple's components, by position or by name. -/
def Ty.tupleItems (t : Ty) (components : List Param) (v : Value) : Except Error (List Value) :=
  match v with
  | .arr items =>
    if items.length = components.length then .ok items else .error (.shape .tupleLength t.text v)
  | .obj fields => t.selectItems v fields components
  | _ => .error (.shape .notTuple t.text v)

/-- A walk whose transform has a state of its own, which outlasts failure. -/
abbrev Walk (σ : Type) := EStateM Error σ

def Walk.ofExcept {σ α : Type} : Except Error α → Walk σ α
  | .ok a => return a
  | .error e => throw e

mutual

def Ty.walk {σ : Type} (leaf : Elementary → Value → Walk σ Value) : Ty → Value → Walk σ Value
  | .elementary type, v => leaf type v
  | .array element length, v => do
    let items ← Walk.ofExcept (Ty.arrayItems (.array element length) length v)
    return .arr (← items.mapM (element.walk leaf))
  | .tuple components, v => do
    let items ← Walk.ofExcept (Ty.tupleItems (.tuple components) components v)
    return .arr (← Ty.walkEach leaf components items)

def Ty.walkEach {σ : Type} (leaf : Elementary → Value → Walk σ Value) :
    List Param → List Value → Walk σ (List Value)
  | ⟨_, _, type⟩ :: params, v :: items => do
    let w ← type.walk leaf v
    let more ← Ty.walkEach leaf params items
    return w :: more
  | _, _ => return []

end

end ContractAbi
