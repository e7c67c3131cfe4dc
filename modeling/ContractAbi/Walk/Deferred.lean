import ContractAbi.Walk.Basic

/-!
Walks whose leaves take time. The whole shape is checked first; then every leaf is started, from
left to right; then the outcomes are joined and put in the places of their leaves.
-/

namespace ContractAbi

/-- The leaves of a value along a type, in their places. -/
inductive Plan where
  | leaf (type : Elementary) (value : Value)
  | branch (parts : List Plan)

mutual

def Ty.plan : Ty → Value → Except Error Plan
  | .elementary type, v => .ok (.leaf type v)
  | .array element length, v => do
    let items ← Ty.arrayItems (.array element length) length v
    return .branch (← items.mapM element.plan)
  | .tuple components, v => do
    let items ← Ty.tupleItems (.tuple components) components v
    return .branch (← Ty.planEach components items)

def Ty.planEach : List Param → List Value → Except Error (List Plan)
  | ⟨_, _, type⟩ :: params, v :: items => do
    let part ← type.plan v
    let more ← Ty.planEach params items
    return part :: more
  | _, _ => return []

end

namespace Plan

mutual

def leaves : Plan → List (Elementary × Value)
  | leaf type v => [(type, v)]
  | branch parts => leavesOf parts

def leavesOf : List Plan → List (Elementary × Value)
  | [] => []
  | part :: rest => part.leaves ++ leavesOf rest

end

mutual

/-- The plan with one result after the other in the places of its leaves, and the results left. -/
def fill : Plan → List Value → Value × List Value
  | leaf _ v, [] => (v, [])
  | leaf _ _, result :: rest => (result, rest)
  | branch parts, results =>
    let (items, rest) := fillEach parts results
    (.arr items, rest)

def fillEach : List Plan → List Value → List Value × List Value
  | [], results => ([], results)
  | part :: parts, results =>
    let (item, rest) := part.fill results
    let (items, rest) := fillEach parts rest
    (item :: items, rest)

end

end Plan

/-- A result that is there after a number of rounds. -/
structure Deferred where
  outcome : Except Error Value
  delay : Nat

namespace Deferred

/-- Up to so many leaves are waited for together, more of them one after the other. -/
def togetherLimit : Nat := 30

/-- The failure that comes first: with the least delay, and of those the leftmost. -/
def earliest : List (Nat × Error) → Option Error
  | [] => none
  | (delay, e) :: rest =>
    if rest.all fun other => delay ≤ other.1 then some e else earliest rest

def failures (ds : List Deferred) : List (Nat × Error) :=
  ds.filterMap fun d =>
    match d.outcome with
    | .error e => some (d.delay, e)
    | .ok _ => none

/-- The failure that ends the walk, if there is one. -/
def failure? (ds : List Deferred) : Option Error :=
  if ds.length ≤ togetherLimit then earliest (failures ds)
  else (failures ds).head?.map Prod.snd

def join (ds : List Deferred) : Except Error (List Value) :=
  match failure? ds with
  | some e => .error e
  | none => .ok (ds.filterMap fun d => d.outcome.toOption)

end Deferred

def Walk.ofState {σ α : Type} (x : StateM σ α) : Walk σ α := fun s => .ok (x s).1 (x s).2

/-- Walks with a transform that starts a leaf, and a join that waits for all that was started. -/
def Ty.walkJoined {σ φ : Type} (start : Elementary → Value → StateM σ φ)
    (join : List φ → Walk σ (List Value)) (t : Ty) (v : Value) : Walk σ Value := do
  let plan ← Walk.ofExcept (t.plan v)
  let pending ← Walk.ofState (plan.leaves.mapM fun leaf => start leaf.1 leaf.2)
  let results ← join pending
  return (plan.fill results).1

def Ty.walkDeferred {σ : Type} (start : Elementary → Value → StateM σ Deferred) (t : Ty)
    (v : Value) : Walk σ Value :=
  t.walkJoined start (fun pending => Walk.ofExcept (Deferred.join pending)) v

end ContractAbi
