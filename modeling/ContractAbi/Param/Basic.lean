import ContractAbi.Elementary
import ContractAbi.Error
import ContractAbi.Word

/-!
Parameters and their types. A type is elementary, a tuple of parameters, or an array; the name and
the indexed flag belong to the parameter and not to its type, so an array's elements have neither.
-/

namespace ContractAbi

mutual

/-- The indexed flag is there for inputs of events only. -/
structure Param where
  name : Option Identifier
  indexed : Option Bool
  type : Ty

/-- An array without a length takes any number of elements. -/
inductive Ty where
  | elementary (type : Elementary)
  | tuple (components : List Param)
  | array (element : Ty) (length : Option UInt64)

end

mutual

/-- Types are built up from elementary ones, tuples from the types of their components. -/
theorem Ty.induction {motive : Ty → Prop} (elementary : ∀ type, motive (.elementary type))
    (array : ∀ element length, motive element → motive (.array element length))
    (tuple : ∀ components : List Param, (∀ p ∈ components, motive p.type) →
      motive (.tuple components)) : (t : Ty) → motive t
  | .elementary type => elementary type
  | .array element length => array element length (Ty.induction elementary array tuple element)
  | .tuple components => tuple components (Param.induction elementary array tuple components)

theorem Param.induction {motive : Ty → Prop} (elementary : ∀ type, motive (.elementary type))
    (array : ∀ element length, motive element → motive (.array element length))
    (tuple : ∀ components : List Param, (∀ p ∈ components, motive p.type) →
      motive (.tuple components)) : (ps : List Param) → ∀ p ∈ ps, motive p.type
  | [] => nofun
  | ⟨_, _, type⟩ :: rest =>
    List.forall_mem_cons.mpr
      ⟨Ty.induction elementary array tuple type, Param.induction elementary array tuple rest⟩

end

mutual

def Ty.decEq : (s t : Ty) → Decidable (s = t)
  | .elementary a, .elementary b => decidable_of_iff (a = b) (by simp)
  | .tuple ps, .tuple qs =>
    match Param.decEqList ps qs with
    | isTrue h => isTrue (h ▸ rfl)
    | isFalse h => isFalse (by simp [h])
  | .array s m, .array t n =>
    match s.decEq t with
    | isTrue h => decidable_of_iff (m = n) (by simp [h])
    | isFalse h => isFalse (by simp [h])
  | .elementary _, .tuple _ => isFalse nofun
  | .elementary _, .array _ _ => isFalse nofun
  | .tuple _, .elementary _ => isFalse nofun
  | .tuple _, .array _ _ => isFalse nofun
  | .array _ _, .elementary _ => isFalse nofun
  | .array _ _, .tuple _ => isFalse nofun

def Param.decEqList : (ps qs : List Param) → Decidable (ps = qs)
  | [], [] => isTrue rfl
  | [], _ :: _ => isFalse nofun
  | _ :: _, [] => isFalse nofun
  | ⟨m, i, s⟩ :: ps, ⟨n, j, t⟩ :: qs =>
    match s.decEq t, Param.decEqList ps qs with
    | isTrue h, isTrue hs => decidable_of_iff (m = n ∧ i = j) (by simp [h, hs])
    | isFalse h, _ => isFalse (by simp [h])
    | _, isFalse h => isFalse (by simp [h])

end

instance : DecidableEq Ty := Ty.decEq

instance : DecidableEq Param
  | ⟨m, i, s⟩, ⟨n, j, t⟩ => decidable_of_iff (m = n ∧ i = j ∧ s = t) (by simp)

def arraySuffix : Option UInt64 → String
  | some length => "[" ++ length.toNat.repr ++ "]"
  | none => "[]"

mutual

/-- The canonical text of a type, in which tuples carry their word and components no names. -/
def Ty.text : Ty → String
  | .elementary type => type.text
  | .tuple components => "tuple(" ++ ",".intercalate (Param.typeTexts components) ++ ")"
  | .array element length => element.text ++ arraySuffix length

def Param.typeTexts : List Param → List String
  | [] => []
  | ⟨_, _, type⟩ :: rest => type.text :: Param.typeTexts rest

end

/-- The elementary type itself, or the word for what the type is made by. -/
def Ty.baseText : Ty → String
  | .elementary type => type.text
  | .tuple _ => "tuple"
  | .array _ _ => "array"

def Ty.isBytes (t : Ty) : Bool := t == .elementary .bytes

namespace Param

/-- A parameter without a name, outside of an event's inputs. -/
def ofType (type : Ty) : Param := ⟨none, none, type⟩

def elementary (word : String) : Except Error Param :=
  match Elementary.ofString word with
  | .ok type => .ok (ofType (.elementary type))
  | .error fault => .error (.argument (.elementary fault word))

def tuple (components : List Param) : Param := ofType (.tuple components)

/-- Takes the type of the elements only. -/
def array (element : Param) (length : Option UInt64) : Param := ofType (.array element.type length)

/-- The name as text, empty if there is none. -/
def nameText (p : Param) : String := p.name.elim "" Identifier.text

def isIndexed (p : Param) : Bool := p.indexed == some true

/-- Reads a name, which may be empty. -/
def nameOf (text : String) : Except Error (Option Identifier) :=
  if text = "" then .ok none
  else
    match Identifier.ofString? text with
    | some name => .ok (some name)
    | none => .error (.argument (.parameterName text))

def withName (p : Param) (text : String) : Except Error Param :=
  (nameOf text).map fun name => { p with name }

end Param

end ContractAbi
