import ContractAbi.Token.Basic

/-!
The items of a signature: single lexemes, commas, and groups of items in parentheses. Laying items
out in a row gives their tokens, depths and links included.
-/

namespace ContractAbi

/-- A stretch of text that becomes one token. -/
structure Lexeme where
  kind : Token.Kind
  text : String
  offset : Nat
  value : Option UInt64
deriving DecidableEq, Repr

inductive Item where
  | single (lexeme : Lexeme)
  | comma (offset : Nat)
  | group (openAt : Nat) (body : List Item) (closeAt : Nat)

namespace Item

mutual

/-- The number of tokens of an item. -/
def width : Item → Nat
  | single _ => 1
  | comma _ => 1
  | group _ body _ => widths body + 2

def widths : List Item → Nat
  | [] => 0
  | item :: rest => item.width + widths rest

end

/-- The position of the first comma among items laid out from `start`, or the one just past them. -/
def nextStop (start : Nat) : List Item → Nat
  | [] => start
  | comma _ :: _ => start
  | item :: rest => nextStop (start + item.width) rest

/-- The stop of the chain that is latest after an item at `start`, if it was `previous` before. -/
def stopAfter (previous start : Nat) : Item → Nat
  | comma _ => start
  | _ => previous

/-- The position of the last comma among items laid out from `start`, or `previous`. -/
def lastStop (previous start : Nat) : List Item → Nat
  | [] => previous
  | item :: rest => lastStop (item.stopAfter previous start) (start + item.width) rest

mutual

/-- The tokens of an item at `start`, between two stops of the chain that it is in. -/
def tokensAt (start depth previous next : Nat) : Item → List Token
  | single l => [⟨l.kind, l.text, l.offset, depth, none, none, none, l.value⟩]
  | comma offset => [⟨.comma, ",", offset, depth, none, some previous, some next, none⟩]
  | group openAt body closeAt =>
    let close := start + 1 + widths body
    ⟨.openParen, "(", openAt, depth, some close, none, some (nextStop (start + 1) body), none⟩ ::
      layout (start + 1) (depth + 1) start body ++
      [⟨.closeParen, ")", closeAt, depth, some start, some (lastStop start (start + 1) body), none,
        none⟩]

/-- The tokens of items laid out from `start`; `previous` is the stop of the chain before them. -/
def layout (start depth previous : Nat) : List Item → List Token
  | [] => []
  | item :: rest =>
    item.tokensAt start depth previous (nextStop (start + item.width) rest) ++
      layout (start + item.width) depth (item.stopAfter previous start) rest

end

mutual

theorem length_tokensAt (start depth previous next : Nat) :
    (item : Item) → (item.tokensAt start depth previous next).length = item.width
  | single _ => rfl
  | comma _ => rfl
  | group _ body _ => by simp [tokensAt, width, length_layout (start + 1) (depth + 1) start body]

theorem length_layout (start depth previous : Nat) :
    (items : List Item) → (layout start depth previous items).length = widths items
  | [] => rfl
  | item :: rest => by simp [layout, widths, length_tokensAt, length_layout _ _ _ rest]

end

/-- The tokens of items outside of all groups, where there are no commas. -/
def tokens (items : List Item) : List Token := layout 0 0 0 items

end Item

end ContractAbi
