import ContractAbi.Value
import Mathlib.Data.List.Basic

/-!
Values and JSON are converted into each other by replacing numbers, and nothing but numbers. So what
a conversion changes can be read off the numbers of a tree, however deep they are in it.
-/

namespace ContractAbi

namespace Json

mutual

/-- The numbers of a value, in order. -/
def numbers : Json → List Number
  | num x => [x]
  | arr items => itemsNumbers items
  | obj members => membersNumbers members
  | _ => []

def itemsNumbers : List Json → List Number
  | [] => []
  | j :: rest => j.numbers ++ itemsNumbers rest

def membersNumbers : List (String × Json) → List Number
  | [] => []
  | (_, j) :: rest => j.numbers ++ membersNumbers rest

end

mutual

/-- Puts something else in the place of every number. -/
def replace (f : Number → Json) : Json → Json
  | null => null
  | bool b => bool b
  | num x => f x
  | str s => str s
  | arr items => arr (replaceItems f items)
  | obj members => obj (replaceMembers f members)

def replaceItems (f : Number → Json) : List Json → List Json
  | [] => []
  | j :: rest => j.replace f :: replaceItems f rest

def replaceMembers (f : Number → Json) : List (String × Json) → List (String × Json)
  | [] => []
  | (key, j) :: rest => (key, j.replace f) :: replaceMembers f rest

end

variable {f : Number → Json}

mutual

theorem replace_eq_self_iff : (j : Json) → (j.replace f = j ↔ ∀ x ∈ j.numbers, f x = num x)
  | null | bool _ | str _ => by simp [replace, numbers]
  | num x => by simp [replace, numbers]
  | arr items => by rw [replace, arr.injEq, replaceItems_eq_self_iff items, numbers]
  | obj members => by rw [replace, obj.injEq, replaceMembers_eq_self_iff members, numbers]

theorem replaceItems_eq_self_iff :
    (items : List Json) → (replaceItems f items = items ↔ ∀ x ∈ itemsNumbers items, f x = num x)
  | [] => by simp [replaceItems, itemsNumbers]
  | j :: rest => by
    rw [replaceItems, List.cons.injEq, replace_eq_self_iff j, replaceItems_eq_self_iff rest,
      itemsNumbers, List.forall_mem_append]

theorem replaceMembers_eq_self_iff :
    (members : List (String × Json)) →
      (replaceMembers f members = members ↔ ∀ x ∈ membersNumbers members, f x = num x)
  | [] => by simp [replaceMembers, membersNumbers]
  | (key, j) :: rest => by
    rw [replaceMembers, List.cons.injEq, Prod.mk.injEq, replace_eq_self_iff j,
      replaceMembers_eq_self_iff rest, membersNumbers, List.forall_mem_append]
    simp only [true_and]

end

mutual

theorem numbers_replace :
    (j : Json) → (j.replace f).numbers = j.numbers.flatMap fun x => (f x).numbers
  | null | bool _ | str _ => rfl
  | num _ => (List.flatMap_singleton ..).symm
  | arr items => itemsNumbers_replace items
  | obj members => membersNumbers_replace members

theorem itemsNumbers_replace :
    (items : List Json) →
      itemsNumbers (replaceItems f items) = (itemsNumbers items).flatMap fun x => (f x).numbers
  | [] => rfl
  | j :: rest => by
    rw [replaceItems, itemsNumbers, numbers_replace j, itemsNumbers_replace rest, itemsNumbers,
      List.flatMap_append]

theorem membersNumbers_replace :
    (members : List (String × Json)) →
      membersNumbers (replaceMembers f members) =
        (membersNumbers members).flatMap fun x => (f x).numbers
  | [] => rfl
  | (key, j) :: rest => by
    rw [replaceMembers, membersNumbers, numbers_replace j, membersNumbers_replace rest,
      membersNumbers, List.flatMap_append]

end

end Json

namespace Value

mutual

/-- The integers of a value, in order. -/
def integers : Value → List Int
  | int n => [n]
  | arr items => itemsIntegers items
  | obj fields => fieldsIntegers fields
  | _ => []

def itemsIntegers : List Value → List Int
  | [] => []
  | v :: rest => v.integers ++ itemsIntegers rest

def fieldsIntegers : List (String × Value) → List Int
  | [] => []
  | (_, v) :: rest => v.integers ++ fieldsIntegers rest

end

mutual

/-- Puts something else in the place of every integer. -/
def replace (f : Int → Value) : Value → Value
  | null => null
  | bool b => bool b
  | int n => f n
  | str s => str s
  | arr items => arr (replaceItems f items)
  | obj fields => obj (replaceFields f fields)

def replaceItems (f : Int → Value) : List Value → List Value
  | [] => []
  | v :: rest => v.replace f :: replaceItems f rest

def replaceFields (f : Int → Value) : List (String × Value) → List (String × Value)
  | [] => []
  | (key, v) :: rest => (key, v.replace f) :: replaceFields f rest

end

variable {f : Int → Value}

mutual

theorem replace_eq_self_iff : (v : Value) → (v.replace f = v ↔ ∀ n ∈ v.integers, f n = int n)
  | null | bool _ | str _ => by simp [replace, integers]
  | int n => by simp [replace, integers]
  | arr items => by rw [replace, arr.injEq, replaceItems_eq_self_iff items, integers]
  | obj fields => by rw [replace, obj.injEq, replaceFields_eq_self_iff fields, integers]

theorem replaceItems_eq_self_iff :
    (items : List Value) →
      (replaceItems f items = items ↔ ∀ n ∈ itemsIntegers items, f n = int n)
  | [] => by simp [replaceItems, itemsIntegers]
  | v :: rest => by
    rw [replaceItems, List.cons.injEq, replace_eq_self_iff v, replaceItems_eq_self_iff rest,
      itemsIntegers, List.forall_mem_append]

theorem replaceFields_eq_self_iff :
    (fields : List (String × Value)) →
      (replaceFields f fields = fields ↔ ∀ n ∈ fieldsIntegers fields, f n = int n)
  | [] => by simp [replaceFields, fieldsIntegers]
  | (key, v) :: rest => by
    rw [replaceFields, List.cons.injEq, Prod.mk.injEq, replace_eq_self_iff v,
      replaceFields_eq_self_iff rest, fieldsIntegers, List.forall_mem_append]
    simp only [true_and]

end

mutual

/-- Going to JSON and back happens at each integer apart. -/
theorem ofJson_toJson_eq_replace :
    (v : Value) → ofJson v.toJson = v.replace fun n => ofJson (intToJson n)
  | null | bool _ | str _ | int _ => rfl
  | arr items => congrArg arr (ofJsonItems_toJsonItems items)
  | obj fields => congrArg obj (ofJsonMembers_toJsonFields fields)

theorem ofJsonItems_toJsonItems :
    (items : List Value) →
      ofJsonItems (toJsonItems items) = replaceItems (fun n => ofJson (intToJson n)) items
  | [] => rfl
  | v :: rest =>
    congrArg₂ List.cons (ofJson_toJson_eq_replace v) (ofJsonItems_toJsonItems rest)

theorem ofJsonMembers_toJsonFields :
    (fields : List (String × Value)) →
      ofJsonMembers (toJsonFields fields) = replaceFields (fun n => ofJson (intToJson n)) fields
  | [] => rfl
  | (key, v) :: rest =>
    congrArg₂ List.cons (congrArg (Prod.mk key) (ofJson_toJson_eq_replace v))
      (ofJsonMembers_toJsonFields rest)

end

mutual

/-- So does coming from JSON and going back to it. -/
theorem toJson_ofJson_eq_replace :
    (j : Json) → (ofJson j).toJson = j.replace fun x => (ofNumber x).toJson
  | .null | .bool _ | .str _ | .num _ => rfl
  | .arr items => congrArg Json.arr (toJsonItems_ofJsonItems items)
  | .obj members => congrArg Json.obj (toJsonFields_ofJsonMembers members)

theorem toJsonItems_ofJsonItems :
    (items : List Json) →
      toJsonItems (ofJsonItems items) = Json.replaceItems (fun x => (ofNumber x).toJson) items
  | [] => rfl
  | j :: rest =>
    congrArg₂ List.cons (toJson_ofJson_eq_replace j) (toJsonItems_ofJsonItems rest)

theorem toJsonFields_ofJsonMembers :
    (members : List (String × Json)) →
      toJsonFields (ofJsonMembers members) =
        Json.replaceMembers (fun x => (ofNumber x).toJson) members
  | [] => rfl
  | (key, j) :: rest =>
    congrArg₂ List.cons (congrArg (Prod.mk key) (toJson_ofJson_eq_replace j))
      (toJsonFields_ofJsonMembers rest)

end

/-- A signed word of 64 bits can hold the integer. -/
def FitsWord (n : Int) : Prop := -Int.pow 2 63 ≤ n ∧ n ≤ Int.pow 2 63 - 1

instance (n : Int) : Decidable (FitsWord n) := inferInstanceAs (Decidable (_ ∧ _))

theorem intToJson_eq (n : Int) :
    intToJson n = if FitsWord n then .num (.int n) else .str n.repr := rfl

theorem ofJson_intToJson (n : Int) :
    ofJson (intToJson n) = if FitsWord n then int n else str n.repr := by
  rw [intToJson_eq]
  split <;> rfl

theorem ofJson_intToJson_eq_int_iff {n : Int} : ofJson (intToJson n) = int n ↔ FitsWord n := by
  rw [ofJson_intToJson]
  split
  next h => simp [h]
  next h => simp [h]

/-- A number that is the same after a conversion to a value and back. -/
theorem toJson_ofNumber_eq_num_iff {x : Json.Number} :
    (ofNumber x).toJson = .num x ↔ ∃ n, x = .int n ∧ FitsWord n := by
  cases x with
  | int n =>
    change intToJson n = _ ↔ _
    rw [intToJson_eq]
    split
    next h => simp [h]
    next h => simp [h]
  | float x => simp [ofNumber, toJson]

/-- No other numbers than those are left by the conversion. -/
theorem fitsWord_of_mem_numbers {x y : Json.Number} (h : y ∈ (ofNumber x).toJson.numbers) :
    ∃ n, y = .int n ∧ FitsWord n := by
  cases x with
  | int n =>
    change y ∈ (intToJson n).numbers at h
    rw [intToJson_eq] at h
    split at h
    next hn => exact ⟨n, List.mem_singleton.mp h, hn⟩
    next => cases h
  | float x => cases h

/-- A value is the same after a conversion to JSON and back if and only if all integers in it fit
into a word; others come back as their decimal texts. The conversion from JSON and back does nothing
more when it is repeated, and nothing at all if every number is such an integer. -/
theorem conversion_changes_wide_numbers :
    (∀ v : Value,
      ofJson v.toJson = v.replace (fun n => if FitsWord n then int n else str n.repr) ∧
        (ofJson v.toJson = v ↔ ∀ n ∈ v.integers, FitsWord n)) ∧
    ∀ j : Json,
      (ofJson (ofJson j).toJson).toJson = (ofJson j).toJson ∧
        ((ofJson j).toJson = j ↔ ∀ x ∈ j.numbers, ∃ n, x = .int n ∧ FitsWord n) := by
  have hfixed (j : Json) :
      (ofJson j).toJson = j ↔ ∀ x ∈ j.numbers, ∃ n, x = .int n ∧ FitsWord n := by
    rw [toJson_ofJson_eq_replace, Json.replace_eq_self_iff]
    exact forall₂_congr fun x _ => toJson_ofNumber_eq_num_iff
  refine ⟨fun v => ⟨?_, ?_⟩, fun j => ⟨?_, hfixed j⟩⟩
  · rw [ofJson_toJson_eq_replace, funext ofJson_intToJson]
  · rw [ofJson_toJson_eq_replace, replace_eq_self_iff]
    exact forall₂_congr fun n _ => ofJson_intToJson_eq_int_iff
  · rw [hfixed]
    intro y hy
    rw [toJson_ofJson_eq_replace, Json.numbers_replace] at hy
    obtain ⟨x, -, hx⟩ := List.mem_flatMap.mp hy
    exact fitsWord_of_mem_numbers hx

end Value

end ContractAbi
