import ContractAbi.Error
import ContractAbi.Text.Blank
import ContractAbi.Token.Item
import ContractAbi.Word

/-!
Dividing a text into tokens, from left to right. Groups are built up on a stack; a bracket is held
open until it closes, and may hold one number.
-/

namespace ContractAbi

/-- A piece of a text: a run of word characters as long as it can be, or any other character. -/
inductive Piece where
  | run (cs : List Char)
  | mark (c : Char)
deriving DecidableEq, Repr

namespace Piece

def chars : Piece → List Char
  | run cs => cs
  | mark c => [c]

def length (piece : Piece) : Nat := piece.chars.length

/-- Puts a character before the pieces of the text that follows it. -/
def cons (c : Char) (pieces : List Piece) : List Piece :=
  if isWordChar c then
    match pieces with
    | run cs :: rest => run (c :: cs) :: rest
    | _ => run [c] :: pieces
  else mark c :: pieces

def ofChars (cs : List Char) : List Piece := cs.foldr cons []

theorem flatMap_chars_cons (c : Char) (pieces : List Piece) :
    (cons c pieces).flatMap chars = c :: pieces.flatMap chars := by
  unfold cons
  split
  · split <;> simp [chars]
  · rfl

theorem flatMap_chars_ofChars (cs : List Char) : (ofChars cs).flatMap chars = cs := by
  induction cs with
  | nil => rfl
  | cons c cs ih => rw [ofChars, List.foldr_cons, flatMap_chars_cons, ← ofChars, ih]

end Piece

namespace Lexeme

def kindOfWord (text : String) : Token.Kind :=
  if isKeyword text then .keyword
  else if (Elementary.shape? text).isSome then .type
  else .identifier

def word (text : List Char) (offset : Nat) : Lexeme :=
  ⟨kindOfWord (String.ofList text), String.ofList text, offset, none⟩

/-- A number may be as large as it likes, but has a value only if that fits into a word. -/
def number (digits : List Char) (offset : Nat) : Lexeme :=
  ⟨.number, String.ofList digits, offset, Text.word64? digits⟩

end Lexeme

/-- A group that has not been closed yet, with what stands before it, latest first. -/
structure OpenGroup where
  offset : Nat
  before : List Item

/-- A bracket that has not been closed yet, with what stands in it, latest first. -/
structure OpenBracket where
  offset : Nat
  inside : List Lexeme

/-- What has been read of a text: the items of the innermost open group, latest first, and the open
groups, innermost first. -/
structure Lexer where
  items : List Item
  groups : List OpenGroup
  bracket : Option OpenBracket

namespace Lexer

def initial : Lexer := ⟨[], [], none⟩

def add (s : Lexer) (l : Lexeme) : Lexer :=
  match s.bracket with
  | some b => { s with bracket := some { b with inside := l :: b.inside } }
  | none => { s with items := .single l :: s.items }

/-- No punctuation but the closing bracket may follow an opening bracket. -/
def outsideBracket (s : Lexer) (c : Char) (offset : Nat) : Except Error Unit :=
  match s.bracket with
  | some _ => .error (.lexical .openBracket (String.singleton c) offset)
  | none => .ok ()

def closeGroup (s : Lexer) (offset : Nat) : Except Error Lexer :=
  match s.groups with
  | [] => .error (.lexical .noOpenGroup ")" offset)
  | g :: groups =>
    .ok { s with items := .group g.offset s.items.reverse offset :: g.before, groups }

def addComma (s : Lexer) (offset : Nat) : Except Error Lexer :=
  match s.groups with
  | [] => .error (.lexical .commaOutside "," offset)
  | _ :: _ => .ok { s with items := .comma offset :: s.items }

/-- The lexeme of a bracket and what stands in it: nothing, or one number. -/
def arraySuffix (b : OpenBracket) (offset : Nat) : Except Error Lexeme :=
  match b.inside with
  | [] => .ok ⟨.bracket, "[]", b.offset, none⟩
  | [l] =>
    if l.kind = .number then
      match l.value with
      | some length => .ok ⟨.bracket, "[" ++ l.text ++ "]", b.offset, some length⟩
      | none => .error (.lexical .arrayLength l.text l.offset)
    else .error (.lexical .noOpenBracket "]" offset)
  | _ => .error (.lexical .noOpenBracket "]" offset)

def closeBracket (s : Lexer) (offset : Nat) : Except Error Lexer :=
  match s.bracket with
  | none => .error (.lexical .noOpenBracket "]" offset)
  | some b =>
    (arraySuffix b offset).map fun l => { s with items := .single l :: s.items, bracket := none }

def punctuation (s : Lexer) (c : Char) (offset : Nat) : Except Error Lexer :=
  match c with
  | '(' => do
    s.outsideBracket c offset
    return { s with items := [], groups := ⟨offset, s.items⟩ :: s.groups }
  | ')' => do
    s.outsideBracket c offset
    s.closeGroup offset
  | ',' => do
    s.outsideBracket c offset
    s.addComma offset
  | '[' => do
    s.outsideBracket c offset
    return { s with bracket := some ⟨offset, []⟩ }
  | ']' => s.closeBracket offset
  | '@' => .ok (s.add ⟨.atSign, "@", offset, none⟩)
  | c => .error (.lexical .strayCharacter (String.singleton c) offset)

/-- A run of word characters is a number, a word, or a number with a word right after it. -/
def addRun (s : Lexer) (cs : List Char) (offset : Nat) : Lexer :=
  let digits := cs.takeWhile Char.isDigit
  let letters := cs.dropWhile Char.isDigit
  let s := if digits.isEmpty then s else s.add (.number digits offset)
  if letters.isEmpty then s else s.add (.word letters (offset + digits.length))

def addPiece (s : Lexer) (piece : Piece) (offset : Nat) : Except Error Lexer :=
  match piece with
  | .run cs => .ok (s.addRun cs offset)
  | .mark c => if Text.isBlank c then .ok s else s.punctuation c offset

/-- Reads the pieces of a text that follow `offset`. -/
def run (s : Lexer) (offset : Nat) : List Piece → Except Error Lexer
  | [] => .ok s
  | piece :: rest => do
    let s ← s.addPiece piece offset
    s.run (offset + piece.length) rest

/-- The items read, if every bracket and every group has been closed. -/
def finish (s : Lexer) : Except Error (List Item) :=
  match s.bracket, s.groups with
  | some b, _ => .error (.lexical .openBracket "[" b.offset)
  | none, g :: _ => .error (.lexical .openGroup "(" g.offset)
  | none, [] => .ok s.items.reverse

end Lexer

def Item.ofChars (cs : List Char) : Except Error (List Item) := do
  (← Lexer.initial.run 0 (Piece.ofChars cs)).finish

def Token.scan (text : String) : Except Error (List Token) :=
  (Item.ofChars text.toList).map Item.tokens

end ContractAbi
