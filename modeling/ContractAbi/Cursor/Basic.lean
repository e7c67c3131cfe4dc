import ContractAbi.Error

/-!
Reading tokens in order. A cursor reads one list of tokens; the groups in it are cut out along the
links of the tokens, into cursors of their own. The links are trusted only as far as they lead
forward and stay inside.
-/

namespace ContractAbi

structure Cursor where
  tokens : List Token
  position : Nat
deriving DecidableEq, Repr

/-- A reader that fails leaves the cursor where the failing step found it. -/
abbrev Reader := EStateM Error Cursor

namespace Cursor

def ofTokens (tokens : List Token) : Cursor := ⟨tokens, 0⟩

def reset (c : Cursor) : Cursor := { c with position := 0 }

def unread (c : Cursor) : List Token := c.tokens.drop c.position

/-- The texts of the tokens still to be read. -/
def display (c : Cursor) : String := " ".intercalate (c.unread.map Token.text)

def peek? (c : Cursor) : Option Token := c.tokens[c.position]?

/-- The offset of the next token. -/
def offset? (c : Cursor) : Option Nat := c.peek?.map Token.offset

def peekKind? (c : Cursor) (kind : Token.Kind) : Option String :=
  (c.peek?.filter (·.kind == kind)).map Token.text

/-- The next token's text, if it is one of these keywords. -/
def peekKeyword? (c : Cursor) (allowed : List String) : Option String :=
  (c.peekKind? .keyword).filter allowed.contains

/-- Where the text ends, for faults at the end of it. -/
def endOffset? (c : Cursor) : Option Nat := c.tokens.getLast?.map Token.endOffset

/-- A link as seen from the tokens `first` up to `past`, if it leads to one of them. -/
def rebase (first past : Nat) (link : Option Nat) : Option Nat :=
  (link.filter fun i => first ≤ i && i < past).map (· - first)

/-- The tokens `first` up to `past`, with links among themselves only. -/
def slice (c : Cursor) (first past : Nat) : Cursor :=
  ofTokens <| ((c.tokens.take past).drop first).map fun t =>
    { t with
      partner := rebase first past t.partner
      previous := rebase first past t.previous
      next := rebase first past t.next }

/-- The position of the parenthesis that closes the group that opens here. -/
def close? (c : Cursor) (t : Token) : Option Nat :=
  t.partner.filter fun i => c.position < i && i < c.tokens.length

/-- The items between the stops of a group's chain that lie from `first` up to `close`. Every link
leads forward, so there are no more of them than there is room for. -/
def itemsFrom (c : Cursor) (close : Nat) : (room first : Nat) → Except Error (List Cursor)
  | 0, _ => .ok []
  | room + 1, first =>
    if first < close then
      match c.tokens[first]?.bind Token.next with
      | some stop =>
        if first < stop ∧ stop ≤ close then
          (c.itemsFrom close room stop).map (c.slice (first + 1) stop :: ·)
        else .error (.grammar .brokenLinks (c.tokens[first]?.map Token.offset))
      | none => .error (.grammar .brokenLinks (c.tokens[first]?.map Token.offset))
    else .ok []

/-- The items of the group that opens here. An empty group has none, and an item may be empty. -/
def items (c : Cursor) (close : Nat) : Except Error (List Cursor) :=
  if close = c.position + 1 then .ok [] else c.itemsFrom close (close - c.position) c.position

end Cursor

namespace Reader

def fail {α : Type} (fault : GrammarFault) (offset : Option Nat) : Reader α :=
  throw (.grammar fault offset)

/-- Runs on another cursor and leaves the current one alone. -/
def within {α : Type} (c : Cursor) (r : Reader α) : Reader α :=
  match r.run c with
  | .ok a _ => return a
  | .error e _ => throw e

def liftExcept {α : Type} : Except Error α → Reader α
  | .ok a => return a
  | .error e => throw e

def skip (n : Nat) : Reader Unit := modify fun c => { c with position := c.position + n }

def peek : Reader Token := do
  let c ← get
  match c.peek? with
  | some t => return t
  | none => fail .endOfInput c.endOffset?

def pop : Reader Token := do
  let t ← peek
  skip 1
  return t

def popKind (kind : Token.Kind) : Reader String := do
  let t ← peek
  if t.kind = kind then
    skip 1
    return t.text
  else fail (.expectedKind kind t.kind t.text) t.offset

def popKeyword (allowed : List String) : Reader String := do
  let t ← peek
  if t.kind = .keyword ∧ allowed.contains t.text then
    skip 1
    return t.text
  else fail (.expectedKeyword allowed t.text) t.offset

/-- The position of the parenthesis that closes the group the cursor stands before. -/
def groupEnd : Reader Nat := do
  let t ← peek
  if t.kind = .openParen then
    match (← get).close? t with
    | some close => return close
    | none => fail .openGroup t.offset
  else fail (.expectedKind .openParen t.kind t.text) t.offset

/-- Reads a group; what stands in it has a cursor of its own. -/
def popGroup : Reader Cursor := do
  let close ← groupEnd
  let c ← get
  set { c with position := close + 1 }
  return c.slice (c.position + 1) close

/-- Reads a group; each item between its commas has a cursor of its own. -/
def popItems : Reader (List Cursor) := do
  let close ← groupEnd
  let c ← get
  let items ← liftExcept (c.items close)
  set { c with position := close + 1 }
  return items

end Reader

end ContractAbi
