import ContractAbi.Token.Lexer

/-!
What a grammar sees of tokens, and why it sees their groups as well: in a sequence whose parentheses
balance, the first stop that belongs to no group inside is found in one way only.
-/

namespace ContractAbi

/-- A token without its offset, depth and links. A bracket stands for its length, a number for the
digits it is written with. -/
inductive Symbol where
  | openParen
  | closeParen
  | comma
  | atSign
  | bracket (length : Option UInt64)
  | keyword (word : String)
  | type (word : String)
  | identifier (text : String)
  | number (digits : String)
deriving DecidableEq, Repr

namespace Symbol

def of (kind : Token.Kind) (text : String) (value : Option UInt64) : Symbol :=
  match kind with
  | .openParen => openParen
  | .closeParen => closeParen
  | .comma => comma
  | .atSign => atSign
  | .bracket => bracket value
  | .keyword => keyword text
  | .type => type text
  | .identifier => identifier text
  | .number => number text

/-- Whether a symbol is part of a group's structure. -/
def isStructural : Symbol → Bool
  | openParen | closeParen | comma => true
  | _ => false

/-- Symbols that items of their own stand for, as a text has them. -/
def Lexical : Symbol → Prop
  | openParen | closeParen | comma => False
  | atSign | bracket _ => True
  | keyword w => Lexeme.kindOfWord w = .keyword
  | type w => Lexeme.kindOfWord w = .type
  | identifier w => Lexeme.kindOfWord w = .identifier ∧ isIdentifier w = true
  | number w => (Text.decimal? w.toList).isSome = true

theorem Lexical.not_structural {s : Symbol} (h : s.Lexical) : s.isStructural = false := by
  cases s <;> first | rfl | exact h.elim

end Symbol

def Token.symbol (t : Token) : Symbol := .of t.kind t.text t.value

def Lexeme.symbol (l : Lexeme) : Symbol := .of l.kind l.text l.value

namespace Item

mutual

def symbols : Item → List Symbol
  | single l => [l.symbol]
  | comma _ => [.comma]
  | group _ body _ => .openParen :: symbolsOf body ++ [.closeParen]

def symbolsOf : List Item → List Symbol
  | [] => []
  | item :: rest => item.symbols ++ symbolsOf rest

end

@[simp] theorem symbolsOf_nil : symbolsOf [] = [] := rfl

@[simp] theorem symbolsOf_cons (item : Item) (rest : List Item) :
    symbolsOf (item :: rest) = item.symbols ++ symbolsOf rest := rfl

@[simp] theorem symbolsOf_append (xs ys : List Item) :
    symbolsOf (xs ++ ys) = symbolsOf xs ++ symbolsOf ys := by
  induction xs with
  | nil => rfl
  | cons x xs ih => simp [ih]

theorem symbolsOf_map_single (ls : List Lexeme) :
    symbolsOf (ls.map single) = ls.map Lexeme.symbol := by
  induction ls with
  | nil => rfl
  | cons l ls ih =>
    rw [List.map_cons, symbolsOf_cons, ih]
    rfl

mutual

theorem map_symbol_tokensAt (start depth previous next : Nat) :
    (item : Item) → (item.tokensAt start depth previous next).map Token.symbol = item.symbols
  | single _ => rfl
  | comma _ => rfl
  | group _ body _ => by
    simp [tokensAt, symbols, Token.symbol, Symbol.of, map_symbol_layout _ _ _ body]

theorem map_symbol_layout (start depth previous : Nat) :
    (items : List Item) → (layout start depth previous items).map Token.symbol = symbolsOf items
  | [] => rfl
  | item :: rest => by
    simp [layout, map_symbol_tokensAt _ _ _ _ item, map_symbol_layout _ _ _ rest]

end

mutual

/-- Every lexeme of an item is one of these. -/
def All (P : Lexeme → Prop) : Item → Prop
  | single l => P l
  | comma _ => True
  | group _ body _ => AllOf P body

def AllOf (P : Lexeme → Prop) : List Item → Prop
  | [] => True
  | item :: rest => item.All P ∧ AllOf P rest

end

theorem allOf_append {P : Lexeme → Prop} {xs ys : List Item} :
    AllOf P (xs ++ ys) ↔ AllOf P xs ∧ AllOf P ys := by
  induction xs with
  | nil => simp [AllOf]
  | cons x xs ih => simp [AllOf, ih, and_assoc]

theorem allOf_iff {P : Lexeme → Prop} {xs : List Item} : AllOf P xs ↔ ∀ x ∈ xs, x.All P := by
  induction xs with
  | nil => simp [AllOf]
  | cons x xs ih => simp [AllOf, ih]

/-- Items as a text has them. -/
def Proper (items : List Item) : Prop := AllOf (fun l => l.symbol.Lexical) items

/-- Items begin with what their symbols begin with. -/
theorem eq_group_cons {items : List Item} {ss : List Symbol} (hp : Proper items)
    (h : symbolsOf items = .openParen :: ss) :
    ∃ openAt body closeAt rest, items = .group openAt body closeAt :: rest := by
  cases items with
  | nil => cases h
  | cons item rest =>
    cases item with
    | single l =>
      have hl : l.symbol.Lexical := hp.1
      rw [(List.cons.inj h).1] at hl
      exact hl.elim
    | comma => cases h
    | group openAt body closeAt => exact ⟨openAt, body, closeAt, rest, rfl⟩

theorem eq_single_cons {items : List Item} {s : Symbol} {ss : List Symbol}
    (h : symbolsOf items = s :: ss) (hs : s.isStructural = false) :
    ∃ l rest, items = .single l :: rest ∧ l.symbol = s ∧ symbolsOf rest = ss := by
  cases items with
  | nil => cases h
  | cons item rest =>
    cases item with
    | single l =>
      obtain ⟨hl, hr⟩ := List.cons.inj h
      exact ⟨l, rest, rfl, hl, hr⟩
    | comma | group =>
      obtain ⟨rfl, -⟩ := List.cons.inj h
      cases hs

def isComma : Item → Bool
  | comma _ => true
  | _ => false

/-- No item is a comma; there may be commas in groups. -/
def CommaFree (items : List Item) : Prop := ∀ item ∈ items, item.isComma = false

theorem commaFree_nil : CommaFree [] := by simp [CommaFree]

theorem commaFree_append {xs ys : List Item} :
    CommaFree (xs ++ ys) ↔ CommaFree xs ∧ CommaFree ys := by
  simp [CommaFree, or_imp, forall_and]

@[simp] theorem commaFree_cons {item : Item} {rest : List Item} :
    CommaFree (item :: rest) ↔ item.isComma = false ∧ CommaFree rest := by
  simp [CommaFree]

end Item

/-- Symbols whose parentheses balance. Commas outside of all groups are there only if `listed`. -/
inductive Closed : Bool → List Symbol → Prop where
  | nil {listed : Bool} : Closed listed []
  | leaf {listed : Bool} {s : Symbol} {ss : List Symbol} (hs : s.isStructural = false)
      (h : Closed listed ss) : Closed listed (s :: ss)
  | comma {ss : List Symbol} (h : Closed true ss) : Closed true (.comma :: ss)
  | group {listed : Bool} {inner ss : List Symbol} (hi : Closed true inner)
      (h : Closed listed ss) : Closed listed (.openParen :: inner ++ .closeParen :: ss)

namespace Closed

variable {listed : Bool} {xs ys : List Symbol}

theorem append (hx : Closed listed xs) (hy : Closed listed ys) : Closed listed (xs ++ ys) := by
  induction hx with
  | nil => exact hy
  | leaf hs _ ih => exact .leaf hs (ih hy)
  | comma _ ih => exact .comma (ih hy)
  | group hi _ _ ih =>
    rw [List.cons_append, List.cons_append, List.append_assoc, List.cons_append]
    exact .group hi (ih hy)

theorem toListed (h : Closed listed xs) : Closed true xs := by
  induction h with
  | nil => exact .nil
  | leaf hs _ ih => exact .leaf hs ih
  | comma _ ih => exact .comma ih
  | group hi _ _ ih => exact .group hi ih

theorem map_leaf {α : Type} {f : α → Symbol} (h : ∀ a, (f a).isStructural = false) (as : List α) :
    Closed listed (as.map f) := by
  induction as with
  | nil => exact .nil
  | cons a as ih => exact .leaf (h a) ih

/-- A symbol that no sequence of this sort goes on with, outside of its groups. -/
def IsStop (listed : Bool) (s : Symbol) : Prop := s = .closeParen ∨ listed = false ∧ s = .comma

theorem not_isStop_of_leaf {s : Symbol} (h : s.isStructural = false) : ¬ IsStop listed s := by
  rintro (rfl | ⟨-, rfl⟩) <;> cases h

theorem not_isStop_openParen : ¬ IsStop listed .openParen := by
  rintro (h | ⟨-, h⟩) <;> cases h

/-- Up to the first stop, two ways to read a sequence agree. -/
theorem unique (hx : Closed listed xs) (hy : Closed listed ys) {s t : Symbol}
    (hs : IsStop listed s) (ht : IsStop listed t) {r q : List Symbol}
    (h : xs ++ s :: r = ys ++ t :: q) : xs = ys ∧ s = t ∧ r = q := by
  -- on the first reading: where it ends at a stop the second one cannot go on, and where it goes on
  -- with a leaf, a comma or a group the second one does so with the same
  induction hx generalizing ys s t r q with
  | nil =>
    cases hy with
    | nil => simpa using h
    | leaf hl =>
      obtain ⟨rfl, -⟩ := List.cons.inj h
      exact absurd hs (not_isStop_of_leaf hl)
    | comma =>
      obtain ⟨rfl, -⟩ := List.cons.inj h
      simp [IsStop] at hs
    | group =>
      obtain ⟨rfl, -⟩ := List.cons.inj h
      exact absurd hs not_isStop_openParen
  | leaf hl _ ih =>
    cases hy with
    | nil =>
      obtain ⟨rfl, -⟩ := List.cons.inj h
      exact absurd ht (not_isStop_of_leaf hl)
    | leaf _ hy =>
      obtain ⟨rfl, hxy⟩ := List.cons.inj h
      obtain ⟨rfl, hr⟩ := ih hy hs ht hxy
      exact ⟨rfl, hr⟩
    | comma | group =>
      obtain ⟨rfl, -⟩ := List.cons.inj h
      cases hl
  | comma _ ih =>
    cases hy with
    | nil =>
      obtain ⟨rfl, -⟩ := List.cons.inj h
      simp [IsStop] at ht
    | comma hy =>
      obtain ⟨rfl, hr⟩ := ih hy hs ht (List.cons.inj h).2
      exact ⟨rfl, hr⟩
    | leaf hl =>
      obtain ⟨rfl, -⟩ := List.cons.inj h
      cases hl
    | group => cases h
  | group _ _ ihi ih =>
    cases hy with
    | nil =>
      obtain ⟨rfl, -⟩ := List.cons.inj h
      exact absurd ht not_isStop_openParen
    | leaf hl =>
      obtain ⟨rfl, -⟩ := List.cons.inj h
      cases hl
    | comma => cases h
    | group hi hy =>
      simp only [List.cons_append, List.append_assoc, List.cons.injEq, true_and] at h
      obtain ⟨rfl, -, h⟩ := ihi hi (.inl rfl) (.inl rfl) h
      obtain ⟨rfl, hr⟩ := ih hy hs ht h
      exact ⟨rfl, hr⟩

theorem append_comma_ne {r : List Symbol} (hx : Closed false xs) (hy : Closed false ys) :
    xs ++ .comma :: r ≠ ys := by
  intro h
  -- with a parenthesis after both, the two would have different stops
  have he : xs ++ .comma :: (r ++ [.closeParen]) = ys ++ .closeParen :: [] := by
    rw [← h, List.append_assoc, List.cons_append]
  obtain ⟨-, hs, -⟩ := hx.unique hy (.inr ⟨rfl, rfl⟩) (.inl rfl) he
  cases hs

end Closed

namespace Item

mutual

theorem closed_symbols_append {listed : Bool} {ss : List Symbol} (hs : Closed listed ss) :
    (item : Item) → item.All (fun l => l.symbol.Lexical) →
      (listed = false → item.isComma = false) → Closed listed (item.symbols ++ ss)
  | single _, hp, _ => .leaf (Symbol.Lexical.not_structural hp) hs
  | comma _, _, hc => by
    cases listed with
    | false => exact absurd (hc rfl) (by simp [isComma])
    | true => exact .comma hs
  | group _ body _, hp, _ => by
    have hb : Closed true (symbolsOf body) := closed_symbolsOf body hp (by simp)
    rw [symbols, List.cons_append, List.cons_append, List.append_assoc, List.singleton_append]
    exact .group hb hs

theorem closed_symbolsOf {listed : Bool} :
    (items : List Item) → Proper items → (listed = false → CommaFree items) →
      Closed listed (symbolsOf items)
  | [], _, _ => .nil
  | item :: rest, hp, hc => by
    have hr : Closed listed (symbolsOf rest) :=
      closed_symbolsOf rest hp.2 fun h => (commaFree_cons.mp (hc h)).2
    exact closed_symbols_append hr item hp.1 fun h => (commaFree_cons.mp (hc h)).1

end

mutual

theorem lexical_of_mem_symbols {s : Symbol} (hs : s.isStructural = false) :
    (item : Item) → item.All (fun l => l.symbol.Lexical) → s ∈ item.symbols → s.Lexical
  | single _, hp, hm => by
    rw [symbols, List.mem_singleton] at hm
    exact hm ▸ hp
  | comma _, _, hm => by
    rw [symbols, List.mem_singleton] at hm
    subst hm
    cases hs
  | group _ body _, hp, hm => by
    rw [symbols, List.mem_append, List.mem_cons, List.mem_singleton] at hm
    obtain (rfl | hm) | rfl := hm
    · cases hs
    · exact lexical_of_mem_symbolsOf hs body hp hm
    · cases hs

theorem lexical_of_mem_symbolsOf {s : Symbol} (hs : s.isStructural = false) :
    (items : List Item) → Proper items → s ∈ symbolsOf items → s.Lexical
  | [], _, hm => absurd hm List.not_mem_nil
  | item :: rest, hp, hm =>
    (List.mem_append.mp hm).elim (lexical_of_mem_symbols hs item hp.1)
      (lexical_of_mem_symbolsOf hs rest hp.2)

end

end Item

end ContractAbi
