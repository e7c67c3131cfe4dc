import ContractAbi.Cursor.Basic

/-!
What can be done with cursors, one operation after another: on the one at hand, on copies of it, and
on those cut out of its groups. Beside the operations stand their guarded forms, in which every
difference, look-up and slice has to have a result of its own.
-/

namespace ContractAbi.Cursor

inductive Operation where
  | peek
  | peekKind (kind : Token.Kind)
  | peekKeyword (allowed : List String)
  | pop
  | popKind (kind : Token.Kind)
  | popKeyword (allowed : List String)
  | popGroup
  | popItems
  | reset
  | clone
  | length
  | display
deriving DecidableEq, Repr

inductive Answer where
  | none
  | token (t : Token)
  | text (s : String)
  | text? (s : Option String)
  | number (n : Nat)
  | cursors (cs : List Cursor)
deriving DecidableEq, Repr

/-- The cursors that an answer hands out. -/
def Answer.handedOut : Answer → List Cursor
  | cursors cs => cs
  | _ => []

namespace Operation

def run : Operation → Reader Answer
  | peek => .token <$> Reader.peek
  | peekKind kind => return .text? ((← get).peekKind? kind)
  | peekKeyword allowed => return .text? ((← get).peekKeyword? allowed)
  | pop => .token <$> Reader.pop
  | popKind kind => .text <$> Reader.popKind kind
  | popKeyword allowed => .text <$> Reader.popKeyword allowed
  | popGroup => (fun c => .cursors [c]) <$> Reader.popGroup
  | popItems => .cursors <$> Reader.popItems
  | reset => do
    modify Cursor.reset
    return .none
  | clone => return .cursors [← get]
  | length => return .number (← get).unread.length
  | display => return .text (← get).display

/-- Whether the operation cuts cursors out of the one that it acts on. -/
def cuts : Operation → Bool
  | popGroup | popItems => true
  | _ => false

end Operation

/-- Acts on one of the cursors that are held. Those that are handed out are held from then on. -/
def act (held : List Cursor) (turn : Nat × Operation) : List Cursor :=
  match held[turn.1]? with
  | none => held
  | some c =>
    match turn.2.run.run c with
    | .ok answer c' => held.set turn.1 c' ++ answer.handedOut
    | .error _ c' => held.set turn.1 c'

def perform (held : List Cursor) (script : List (Nat × Operation)) : List Cursor :=
  script.foldl act held

section Guarded

/-- A difference, if there is one. -/
def minus? (m n : Nat) : Option Nat := if n ≤ m then some (m - n) else none

/-- What stands in a list from one position up to another, if they are in it and in this order. -/
def between? {α : Type} (xs : List α) (first past : Nat) : Option (List α) :=
  if first ≤ past ∧ past ≤ xs.length then some ((xs.take past).drop first) else none

def length? (c : Cursor) : Option Nat := minus? c.tokens.length c.position

def display? (c : Cursor) : Option String :=
  (between? c.tokens c.position c.tokens.length).map fun ts => " ".intercalate (ts.map Token.text)

def rebase? (first past : Nat) (link : Option Nat) : Option (Option Nat) :=
  match link.filter fun i => first ≤ i && i < past with
  | none => some none
  | some i => (minus? i first).map some

def slice? (c : Cursor) (first past : Nat) : Option Cursor := do
  let ts ← between? c.tokens first past
  let ts ← ts.mapM fun t => do
    let partner ← rebase? first past t.partner
    let previous ← rebase? first past t.previous
    let next ← rebase? first past t.next
    return { t with partner, previous, next }
  return ofTokens ts

/-- Goes along the links from `first` until they have come to `close`, and cuts out what is between.
There is no bound on how often; each time there is less left to go. -/
def follow? (c : Cursor) (close first : Nat) : Option (Except Error (List Cursor)) :=
  if first < close then do
    let t ← c.tokens[first]?
    match t.next with
    | some stop =>
      if first < stop ∧ stop ≤ close then
        let item ← c.slice? (first + 1) stop
        let rest ← c.follow? close stop
        return rest.map (item :: ·)
      else return .error (.grammar .brokenLinks t.offset)
    | none => return .error (.grammar .brokenLinks t.offset)
  else return .ok []
termination_by close - first

/-- Reads up to the end of a group that opens here, and hands out what `cut` makes of it. -/
def leave? (c : Cursor) (cut : (close : Nat) → Option (Except Error (List Cursor))) :
    Option (EStateM.Result Error Cursor Answer) :=
  match Reader.groupEnd.run c with
  | .error e c => some (.error e c)
  | .ok close c =>
    (cut close).map fun
      | .ok cs => .ok (.cursors cs) { c with position := close + 1 }
      | .error e => .error e c

def Operation.guarded (c : Cursor) : Operation → Option (EStateM.Result Error Cursor Answer)
  | popGroup => c.leave? fun close => (c.slice? (c.position + 1) close).map fun inner => .ok [inner]
  | popItems => c.leave? fun close =>
    if c.position + 1 < close then c.follow? close c.position else some (.ok [])
  | length => c.length?.map fun n => .ok (.number n) c
  | display => c.display?.map fun text => .ok (.text text) c
  | op => some (op.run.run c)

end Guarded

end ContractAbi.Cursor
