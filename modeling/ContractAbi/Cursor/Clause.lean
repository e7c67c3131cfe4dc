import ContractAbi.Cursor.Basic
import ContractAbi.Text.Numeral
import ContractAbi.Word

/-!
The clauses that declarations are made of, apart from parameters.
-/

namespace ContractAbi.Reader

/-- The declared name. The word that opens the declaration may be left out before it. -/
def declaredName (opening : String) : Reader String := do
  let c ← get
  match c.peekKeyword? Keyword.declarations with
  | some word =>
    if word = opening then skip 1
    else fail (.expectedDeclaration opening word) c.offset?
  | none => pure ()
  popKind .identifier

/-- Reads these keywords, of which `seen` have been read before. -/
def distinct (seen : List String) : List Token → Reader (List String)
  | [] => return seen.reverse
  | t :: rest => do
    skip 1
    if seen.contains t.text then fail (.duplicateKeyword t.text) t.offset
    else distinct (t.text :: seen) rest

/-- As many of the allowed keywords as follow, each at most once. -/
def keywords (allowed : List String) : Reader (List String) := do
  let c ← get
  distinct [] (c.unread.takeWhile fun t => t.kind == .keyword && allowed.contains t.text)

/-- Whether one keyword follows; if so it is read. -/
def keyword? (word : String) : Reader Bool := do
  return (← keywords [word]).contains word

def atMostOne (group words : List String) (offset : Option Nat) : Reader Unit :=
  let present := group.filter words.contains
  if 1 < present.length then fail (.conflictingKeywords present) offset else pure ()

/-- What the words after the inputs say about mutability, in the order in which they count. -/
def mutabilityOf (words : List String) : Mutability :=
  if words.contains "view" then .view
  else if words.contains "pure" then .pure
  else if words.contains "payable" then .payable
  else if words.contains "nonpayable" then .nonpayable
  else if words.contains "constant" then .view
  else .nonpayable

def mutability : Reader Mutability := do
  let offset := (← get).offset?
  let words ← keywords Keyword.visibility
  atMostOne Keyword.olderMutability words offset
  atMostOne Keyword.mutability words offset
  return mutabilityOf words

/-- The gas of a call, after an at sign. -/
def gas : Reader (Option Nat) := do
  if ((← get).peekKind? .atSign).isNone then return none
  let t ← pop
  match ((← get).peekKind? .number).bind fun digits => Text.grouped? 10 digits.toList with
  | some n =>
    skip 1
    return some n
  | none => fail .gas t.offset

def endOfInput : Reader Unit := do
  let c ← get
  if c.unread.isEmpty then pure () else fail (.leftover c.display) c.offset?

end ContractAbi.Reader
