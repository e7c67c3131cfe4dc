import ContractAbi.Json.Basic

/-!
JSON as it is written: members in their order with duplicates among them, texts that may hold an
unpaired surrogate, and numbers that may lie out of range. Whoever reads a part of it decides
whether that matters.
-/

namespace ContractAbi

/-- A text is `none` if it has an unpaired surrogate, a number if it is out of range. -/
inductive Json.Source where
  | null
  | bool (b : Bool)
  | num (n : Option Json.Number)
  | str (s : Option String)
  | arr (items : List Json.Source)
  | obj (members : List (Option String × Json.Source))

namespace Json

mutual

/-- A value as it would be written. -/
def toSource : Json → Source
  | null => .null
  | bool b => .bool b
  | num n => .num (some n)
  | str s => .str (some s)
  | arr items => .arr (toSourceItems items)
  | obj members => .obj (toSourceMembers members)

def toSourceItems : List Json → List Source
  | [] => []
  | j :: rest => j.toSource :: toSourceItems rest

def toSourceMembers : List (String × Json) → List (Option String × Source)
  | [] => []
  | (key, j) :: rest => (some key, j.toSource) :: toSourceMembers rest

end

/-- Sets a member among members in increasing order of their keys; a member of the same key gives
way. -/
def setMember (key : String) (j : Json) : List (String × Json) → List (String × Json)
  | [] => [(key, j)]
  | (k, v) :: rest =>
    if key < k then (key, j) :: (k, v) :: rest
    else if key = k then (key, j) :: rest
    else (k, v) :: setMember key j rest

namespace Source

mutual

/-- How many arrays and objects stand inside each other. -/
def nesting : Source → Nat
  | arr items => nestingItems items + 1
  | obj members => nestingMembers members + 1
  | _ => 0

def nestingItems : List Source → Nat
  | [] => 0
  | s :: rest => max s.nesting (nestingItems rest)

def nestingMembers : List (Option String × Source) → Nat
  | [] => 0
  | (_, s) :: rest => max s.nesting (nestingMembers rest)

end

mutual

/-- The value that is written, if it nests no deeper than `limit` and has no text or number that
cannot be had. Of members with one key the last counts. -/
def toJson? (limit : Nat) : Source → Option Json
  | null => some .null
  | bool b => some (.bool b)
  | num n => n.map .num
  | str s => s.map .str
  | arr items => if limit = 0 then none else (toJsonItems? (limit - 1) items).map .arr
  | obj members => if limit = 0 then none else (toJsonMembers? (limit - 1) [] members).map .obj

def toJsonItems? (limit : Nat) : List Source → Option (List Json)
  | [] => some []
  | s :: rest => do
    let j ← s.toJson? limit
    let more ← toJsonItems? limit rest
    return j :: more

def toJsonMembers? (limit : Nat) (read : List (String × Json)) :
    List (Option String × Source) → Option (List (String × Json))
  | [] => some read
  | (key, s) :: rest => do
    let k ← key
    let j ← s.toJson? limit
    toJsonMembers? limit (setMember k j read) rest

end

/-- The members of an object that have one of these keys. No such key may come twice, and all keys
must be readable. -/
def knownMembers? (keys : List String) :
    List (Option String × Source) → Option (List (String × Source))
  | [] => some []
  | (none, _) :: _ => none
  | (some key, s) :: rest => do
    let more ← knownMembers? keys rest
    if keys.contains key then
      if (more.map Prod.fst).contains key then none else return (key, s) :: more
    else return more

/-- The fields of a record, which is written as an object, or as an array of the fields in order.
The last fields may be left off the array. -/
def fields? (keys : List String) : Source → Option (List (String × Source))
  | obj members => knownMembers? keys members
  | arr items => if items.length ≤ keys.length then some (keys.zip items) else none
  | _ => none

/-- A field that may be absent or null. -/
def optional? {α : Type} (read : Source → Option α) (key : String)
    (fields : List (String × Source)) : Option (Option α) :=
  match fields.lookup key with
  | none | some null => some none
  | some s => (read s).map some

def bool? : Source → Option Bool
  | bool b => some b
  | _ => none

def str? : Source → Option String
  | str s => s
  | _ => none

/-- The items of an array; the array itself takes one level off the limit. -/
def items? {α : Type} (limit : Nat) (read : Nat → Source → Option α) : Source → Option (List α)
  | arr items => if limit = 0 then none else items.mapM (read (limit - 1))
  | _ => none

end Source

end Json

end ContractAbi
