import ContractAbi.Proofs.Lexing
import ContractAbi.Proofs.Nesting
import Mathlib.Data.List.Chain

/-!
The links of laid out items. A group among them is found at its position with its parentheses
around its body, and its chain leads from one parenthesis through the commas of the body to the
other.
-/

namespace ContractAbi

/-- The links of two tokens lead to each other. -/
structure Token.Joined (tokens : List Token) (i j : Nat) : Prop where
  next : tokens[i]?.bind Token.next = some j
  previous : tokens[j]?.bind Token.previous = some i

/-- What the links and depths of tokens are, said of the tokens' kinds alone. Outside of all groups
the tokens lie at depth `base`. -/
structure Token.Linked (base : Nat) (tokens : List Token) : Prop where
  partner_isSome : ∀ t ∈ tokens,
    t.partner.isSome = true ↔ t.kind = .openParen ∨ t.kind = .closeParen
  opening : ∀ i t, tokens[i]? = some t → t.kind = .openParen →
    ∃ j, i < j ∧ t.partner = some j ∧ Pairs (tokens.map Token.symbol) i j
  closing : ∀ j t, tokens[j]? = some t → t.kind = .closeParen →
    ∃ i, i < j ∧ t.partner = some i ∧ Pairs (tokens.map Token.symbol) i j
  involution : ∀ i j, tokens[i]?.bind Token.partner = some j →
    tokens[j]?.bind Token.partner = some i
  nested : ∀ i j i' j', tokens[i]?.bind Token.partner = some j →
    tokens[i']?.bind Token.partner = some j' → i < i' → i' < j → i < j' ∧ j' < j
  /-- Of a parenthesis, the pair that it belongs to itself does not count. -/
  depth : ∀ k t, tokens[k]? = some t →
    t.depth = base + (enclosing (tokens.map Token.symbol) k).ncard
  depth_partner : ∀ (i j : Nat) (t u : Token), tokens[i]? = some t → t.partner = some j →
    tokens[j]? = some u → u.depth = t.depth
  /-- From an opening parenthesis the chain leads through the commas of its own group, and no
  others, to the closing one, where it ends. -/
  chain : ∀ i j, Pairs (tokens.map Token.symbol) i j → ∃ stops : List Nat,
    stops.Pairwise (· < ·) ∧
    (∀ k, k ∈ stops ↔ (tokens.map Token.symbol)[k]? = some .comma ∧
      Innermost (tokens.map Token.symbol) i k j) ∧
    (i :: stops ++ [j]).IsChain (fun a b => tokens[a]?.bind Token.next = some b) ∧
    tokens[j]?.bind Token.next = none
  inverse : ∀ i j, tokens[i]?.bind Token.next = some j ↔ tokens[j]?.bind Token.previous = some i
  unlinked : ∀ t ∈ tokens, t.kind ≠ .openParen → t.kind ≠ .closeParen → t.kind ≠ .comma →
    t.partner = none ∧ t.previous = none ∧ t.next = none
  bounded : ∀ t ∈ tokens, ∀ k, t.partner = some k ∨ t.previous = some k ∨ t.next = some k →
    k < tokens.length

/-- A group where it stands: the position and the depth of its parenthesis, and what it is. -/
structure Site where
  position : Nat
  depth : Nat
  openAt : Nat
  body : List Item
  closeAt : Nat

namespace Site

open Item

/-- The position of the closing parenthesis. -/
def close (g : Site) : Nat := g.position + 1 + widths g.body

def opening (g : Site) : Token :=
  ⟨.openParen, "(", g.openAt, g.depth, some g.close, none,
    some (nextStop (g.position + 1) g.body), none⟩

def closing (g : Site) : Token :=
  ⟨.closeParen, ")", g.closeAt, g.depth, some g.position,
    some (lastStop g.position (g.position + 1) g.body), none, none⟩

def inside (g : Site) : List Token := layout (g.position + 1) (g.depth + 1) g.position g.body

def tokens (g : Site) : List Token := g.opening :: g.inside ++ [g.closing]

theorem length_inside (g : Site) : g.inside.length = widths g.body := length_layout ..

end Site

namespace Item

/-- The groups among items laid out from `start` at a depth, however deep in others. -/
inductive HasGroup : (start depth : Nat) → List Item → Site → Prop where
  | here {start depth openAt closeAt : Nat} {body rest : List Item} :
      HasGroup start depth (.group openAt body closeAt :: rest)
        ⟨start, depth, openAt, body, closeAt⟩
  | inside {start depth openAt closeAt : Nat} {body rest : List Item} {g : Site}
      (h : HasGroup (start + 1) (depth + 1) body g) :
      HasGroup start depth (.group openAt body closeAt :: rest) g
  | later {start depth : Nat} {item : Item} {rest : List Item} {g : Site}
      (h : HasGroup (start + item.width) depth rest g) : HasGroup start depth (item :: rest) g

namespace HasGroup

variable {start depth : Nat} {items : List Item} {g : Site}

theorem proper (h : HasGroup start depth items g) (hp : Proper items) : Proper g.body := by
  induction h with
  | here => exact hp.1
  | inside _ ih => exact ih hp.1
  | later _ ih => exact ih hp.2

/-- The tokens of a group are found at its position. -/
theorem layout_eq (h : HasGroup start depth items g) (previous : Nat) :
    ∃ before after, layout start depth previous items = before ++ g.tokens ++ after ∧
      g.position = start + before.length := by
  induction h generalizing previous with
  | here => exact ⟨[], _, rfl, rfl⟩
  | @inside start depth openAt closeAt body rest g _ ih =>
    obtain ⟨before, after, hb, hg⟩ := ih start
    let outer : Site := ⟨start, depth, openAt, body, closeAt⟩
    have hinside : outer.inside = before ++ g.tokens ++ after := hb
    refine ⟨outer.opening :: before, after ++ outer.closing ::
      layout (start + (widths body + 2)) depth previous rest, ?_, ?_⟩
    · change outer.opening :: outer.inside ++ [outer.closing] ++ _ = _
      rw [hinside]
      simp only [List.append_assoc, List.cons_append, List.nil_append]
      rfl
    · rw [hg, List.length_cons]
      omega
  | @later start depth item rest g _ ih =>
    obtain ⟨before, after, hb, hg⟩ := ih (item.stopAfter previous start)
    rw [layout, hb]
    refine ⟨item.tokensAt start depth previous (nextStop (start + item.width) rest) ++ before,
      after, ?_, ?_⟩
    · simp only [List.append_assoc]
    · rw [hg, List.length_append, length_tokensAt, Nat.add_assoc]

end HasGroup

theorem length_symbols (item : Item) : item.symbols.length = item.width := by
  simpa using length_symbolsOf [item]

theorem closed_symbols {item : Item} (h : item.All fun l => l.symbol.Lexical) :
    Closed true item.symbols := by
  simpa using closed_symbols_append .nil item h (by simp)

mutual

theorem hasGroup_of_symbols {m : Nat} {rest : List Item} (start depth : Nat) :
    (item : Item) → item.All (fun l => l.symbol.Lexical) → item.symbols[m]? = some .openParen →
      ∃ g, HasGroup start depth (item :: rest) g ∧ g.position = start + m
  | single l, hp, hm => by
    obtain ⟨-, hl⟩ : m = 0 ∧ l.symbol = .openParen := by
      simpa [symbols, List.getElem?_singleton] using hm
    rw [All, hl] at hp
    exact hp.elim
  | comma _, _, hm => by
    simp [symbols, List.getElem?_singleton] at hm
  | group openAt body closeAt, hp, hm => by
    cases m with
    | zero => exact ⟨_, .here, rfl⟩
    | succ m =>
      rw [symbols, List.cons_append, List.getElem?_cons_succ, List.getElem?_append] at hm
      split at hm
      · obtain ⟨g, hg, hpos⟩ := hasGroup_of_symbolsOf (start + 1) (depth + 1) body hp hm
        exact ⟨g, .inside hg, by omega⟩
      · simp [List.getElem?_singleton] at hm

/-- Every opening parenthesis is that of a group. -/
theorem hasGroup_of_symbolsOf {m : Nat} (start depth : Nat) :
    (items : List Item) → Proper items → (symbolsOf items)[m]? = some .openParen →
      ∃ g, HasGroup start depth items g ∧ g.position = start + m
  | [], _, hm => by simp at hm
  | item :: rest, hp, hm => by
    rw [symbolsOf_cons, List.getElem?_append] at hm
    split at hm
    · exact hasGroup_of_symbols start depth item hp.1 hm
    next hle =>
      have hw := length_symbols item
      obtain ⟨g, hg, hpos⟩ := hasGroup_of_symbolsOf (start + item.width) depth rest hp.2 hm
      exact ⟨g, .later hg, by omega⟩

end

theorem symbols_tokens {g : Site} :
    g.tokens.map Token.symbol = .openParen :: symbolsOf g.body ++ [.closeParen] := by
  rw [Site.tokens, List.map_append, List.map_cons, Site.inside, map_symbol_layout]
  rfl

namespace HasGroup

variable {depth : Nat} {items : List Item} {g : Site}

theorem symbolsOf_eq (h : HasGroup 0 depth items g) :
    ∃ before after, before.length = g.position ∧ symbolsOf items =
      before ++ .openParen :: symbolsOf g.body ++ .closeParen :: after := by
  obtain ⟨before, after, hl, hg⟩ := h.layout_eq 0
  refine ⟨before.map Token.symbol, after.map Token.symbol,
    by rw [List.length_map, hg, zero_add], ?_⟩
  rw [← map_symbol_layout 0 depth 0 items, hl, List.map_append, List.map_append, symbols_tokens]
  simp

theorem pairs (h : HasGroup 0 depth items g) (hp : Proper items) :
    Pairs (symbolsOf items) g.position g.close := by
  obtain ⟨before, after, hl, hs⟩ := h.symbolsOf_eq
  have hc : Closed true (symbolsOf g.body) := closed_symbolsOf g.body (h.proper hp) (by simp)
  rw [hs, ← hl, Site.close, ← length_symbolsOf, ← hl]
  exact .of_closed hc

end HasGroup

/-- The pairs are those of the groups. -/
theorem pairs_iff (depth : Nat) {items : List Item} (hp : Proper items) {i j : Nat} :
    Pairs (symbolsOf items) i j ↔ ∃ g, HasGroup 0 depth items g ∧ g.position = i ∧ g.close = j := by
  constructor
  · intro h
    obtain ⟨g, hg, hpos⟩ := hasGroup_of_symbolsOf 0 depth items hp h.getElem?_left
    rw [zero_add] at hpos
    have hpairs := hg.pairs hp
    rw [hpos] at hpairs
    exact ⟨g, hg, hpos, hpairs.right_unique h⟩
  · rintro ⟨g, hg, rfl, rfl⟩
    exact hg.pairs hp

/-- The positions of the commas among items laid out from `start` that are in no group of these. -/
def stops (start : Nat) : List Item → List Nat
  | [] => []
  | comma _ :: rest => start :: stops (start + 1) rest
  | item :: rest => stops (start + item.width) rest

theorem stops_cons {item : Item} (h : item.isComma = false) (start : Nat) (rest : List Item) :
    stops start (item :: rest) = stops (start + item.width) rest := by
  cases item with
  | comma => cases h
  | single | group => rfl

theorem stops_commaFree {items : List Item} (h : CommaFree items) (start : Nat) :
    stops start items = [] := by
  induction items generalizing start with
  | nil => rfl
  | cons item rest ih =>
    obtain ⟨hi, h⟩ := commaFree_cons.mp h
    rw [stops_cons hi, ih h]

theorem stops_bounds {start k : Nat} {items : List Item} (h : k ∈ stops start items) :
    start ≤ k ∧ k < start + widths items := by
  induction items generalizing start with
  | nil => cases h
  | cons item rest ih =>
    rw [widths_cons]
    have hw := width_pos item
    cases hi : item.isComma with
    | false =>
      rw [stops_cons hi] at h
      have := ih h
      omega
    | true =>
      cases item with
      | single | group => cases hi
      | comma offset =>
        rw [stops, List.mem_cons] at h
        obtain rfl | h := h
        · omega
        · have := ih h
          rw [width]
          omega

theorem pairwise_stops (start : Nat) (items : List Item) :
    (stops start items).Pairwise (· < ·) := by
  induction items generalizing start with
  | nil => exact .nil
  | cons item rest ih =>
    cases item with
    | comma => exact .cons (fun k hk => (stops_bounds hk).1) (ih _)
    | single | group => exact ih _

/-- Only a comma is a comma that nothing encloses. -/
theorem symbols_comma_iff {item : Item} (hp : item.All fun l => l.symbol.Lexical) {m : Nat}
    (hm : m < item.width) :
    item.symbols[m]? = some .comma ∧ enclosing item.symbols m = ∅ ↔ item.isComma = true := by
  cases item with
  | single l =>
    obtain rfl : m = 0 := Nat.lt_one_iff.mp hm
    have hl : l.symbol ≠ .comma := by
      intro hl
      rw [All, hl] at hp
      exact hp
    simpa [symbols, isComma] using fun h => absurd h hl
  | comma offset =>
    obtain rfl : m = 0 := Nat.lt_one_iff.mp hm
    simp [symbols, isComma, enclosing_zero]
  | group openAt body closeAt =>
    have hc : Closed true (symbolsOf body) := closed_symbolsOf body hp (by simp)
    have hl := length_symbolsOf body
    rw [width] at hm
    refine iff_of_false ?_ (by simp [isComma])
    rintro ⟨hs, he⟩
    cases m with
    | zero => cases hs
    | succ m =>
      rw [symbols, List.cons_append, List.getElem?_cons_succ, List.getElem?_append] at hs
      split at hs
      next hlt =>
        rw [symbols, Nat.add_comm, enclosing_group hc hlt] at he
        exact (Set.insert_nonempty _ _).ne_empty he
      next hge =>
        rw [show m - (symbolsOf body).length = 0 by omega] at hs
        cases hs

theorem mem_stops_iff {items : List Item} (hp : Proper items) {start k : Nat} :
    k ∈ stops start items ↔
      ∃ m, k = start + m ∧ (symbolsOf items)[m]? = some .comma ∧
        enclosing (symbolsOf items) m = ∅ := by
  induction items generalizing start with
  | nil => simp [stops]
  | cons item rest ih =>
    have hw := length_symbols item
    have hc := closed_symbols hp.1
    have hleft {m : Nat} (hm : m < item.width) :
        (symbolsOf (item :: rest))[m]? = some .comma ∧ enclosing (symbolsOf (item :: rest)) m = ∅ ↔
          item.isComma = true := by
      rw [← hw] at hm
      rw [symbolsOf_cons, enclosing_append_left hc hm, List.getElem?_append_left hm,
        symbols_comma_iff hp.1 (hw ▸ hm)]
    have hright {m : Nat} :
        (symbolsOf (item :: rest))[item.width + m]? = some .comma ∧
            enclosing (symbolsOf (item :: rest)) (item.width + m) = ∅ ↔
          (symbolsOf rest)[m]? = some .comma ∧ enclosing (symbolsOf rest) m = ∅ := by
      rw [← hw, symbolsOf_cons, enclosing_append_right hc, Set.image_eq_empty,
        List.getElem?_append_right (Nat.le_add_right _ _), Nat.add_sub_cancel_left]
    have hsplit : k ∈ stops start (item :: rest) ↔
        (item.isComma = true ∧ k = start) ∨ k ∈ stops (start + item.width) rest := by
      cases item with
      | comma => simp [stops, isComma, width]
      | single | group => simp [stops, isComma]
    rw [hsplit, ih hp.2]
    constructor
    · rintro (⟨hi, rfl⟩ | ⟨m, rfl, hm⟩)
      · exact ⟨0, rfl, (hleft (width_pos item)).mpr hi⟩
      · exact ⟨item.width + m, Nat.add_assoc .., hright.mpr hm⟩
    · rintro ⟨m, rfl, hm⟩
      by_cases hlt : m < item.width
      · have hi := (hleft hlt).mp hm
        cases item with
        | single | group => cases hi
        | comma => exact .inl ⟨rfl, by rw [Nat.lt_one_iff.mp hlt, add_zero]⟩
      · obtain ⟨n, rfl⟩ := Nat.exists_eq_add_of_le (Nat.le_of_not_lt hlt)
        exact .inr ⟨n, (Nat.add_assoc ..).symm, hright.mp hm⟩

/-- The commas of a group are those that no group inside it encloses. -/
theorem HasGroup.mem_stops_iff {depth : Nat} {items : List Item} {g : Site}
    (h : HasGroup 0 depth items g) (hp : Proper items) {k : Nat} :
    k ∈ stops (g.position + 1) g.body ↔
      (symbolsOf items)[k]? = some .comma ∧ Innermost (symbolsOf items) g.position k g.close := by
  obtain ⟨before, after, hl, hs⟩ := h.symbolsOf_eq
  have hc : Closed true (symbolsOf g.body) := closed_symbolsOf g.body (h.proper hp) (by simp)
  rw [Item.mem_stops_iff (h.proper hp), Site.close, ← length_symbolsOf, hs, ← hl,
    innermost_group_iff hc]
  have hat {m : Nat} (hm : m < (symbolsOf g.body).length) :
      (before ++ .openParen :: symbolsOf g.body ++ .closeParen :: after)[before.length + 1 + m]? =
        (symbolsOf g.body)[m]? := by
    rw [List.append_assoc, List.getElem?_append_right (by omega), List.cons_append,
      show before.length + 1 + m - before.length = m + 1 by omega, List.getElem?_cons_succ,
      List.getElem?_append_left hm]
  constructor
  · rintro ⟨m, rfl, hm, he⟩
    have hlt := (List.getElem?_eq_some_iff.mp hm).1
    exact ⟨by rw [hat hlt, hm], m, rfl, hlt, he⟩
  · rintro ⟨hk, m, rfl, hlt, he⟩
    exact ⟨m, rfl, by rw [← hat hlt, hk], he⟩

theorem exists_layout_rest {tokens before after : List Token} {depth previous : Nat} {item : Item}
    {rest : List Item}
    (ht : tokens = before ++ layout before.length depth previous (item :: rest) ++ after) :
    ∃ earlier : List Token, earlier.length = before.length + item.width ∧
      tokens = earlier ++
        layout earlier.length depth (item.stopAfter previous before.length) rest ++ after := by
  have hl : (before ++ item.tokensAt before.length depth previous
      (nextStop (before.length + item.width) rest)).length = before.length + item.width := by
    rw [List.length_append, length_tokensAt]
  refine ⟨_, hl, ?_⟩
  rw [hl, ht, layout]
  simp only [List.append_assoc]

theorem getElem?_comma {tokens before after : List Token} {depth previous offset : Nat}
    {rest : List Item}
    (ht : tokens = before ++ layout before.length depth previous (.comma offset :: rest) ++ after) :
    tokens[before.length]? = some ⟨.comma, ",", offset, depth, none, some previous,
      some (nextStop (before.length + 1) rest), none⟩ := by
  rw [ht, layout, tokensAt]
  simp [width]

/-- From one stop of a chain to another, the links lead through the commas between them. -/
theorem isChain_layout {tokens before after : List Token} {depth : Nat} (items : List Item)
    {previous : Nat} (ht : tokens = before ++ layout before.length depth previous items ++ after)
    (hn : tokens[previous]?.bind Token.next = some (nextStop before.length items))
    (hp : tokens[before.length + widths items]?.bind Token.previous =
      some (lastStop previous before.length items)) :
    (previous :: stops before.length items ++ [before.length + widths items]).IsChain
      (Token.Joined tokens) := by
  induction items generalizing before previous with
  | nil => exact .cons_cons ⟨hn, hp⟩ (.singleton _)
  | cons item rest ih =>
    obtain ⟨earlier, hl, hrest⟩ := exists_layout_rest ht
    have hih := ih hrest
    rw [hl] at hih
    rw [widths_cons, ← Nat.add_assoc] at hp ⊢
    cases item with
    | single | group => exact hih hn hp
    | comma offset =>
      have hat := getElem?_comma ht
      have hnext : tokens[before.length]?.bind Token.next =
          some (nextStop (before.length + 1) rest) := by rw [hat]; rfl
      have hprevious : tokens[before.length]?.bind Token.previous = some previous := by
        rw [hat]
        rfl
      exact .cons_cons ⟨hn, hprevious⟩ (hih hnext hp)

mutual

/-- Only parentheses have partners, and besides them only commas have other links. -/
theorem links_of_mem_tokensAt {start depth previous next : Nat} {t : Token} :
    (item : Item) → item.All (fun l => l.symbol.Lexical) →
      t ∈ item.tokensAt start depth previous next →
      (t.partner.isSome = true ↔ t.kind = .openParen ∨ t.kind = .closeParen) ∧
      (t.next.isSome = true ↔ t.kind = .openParen ∨ t.kind = .comma) ∧
      (t.previous.isSome = true ↔ t.kind = .closeParen ∨ t.kind = .comma)
  | single l, hp, ht => by
    obtain rfl := List.mem_singleton.mp ht
    obtain ⟨kind, text, offset, value⟩ := l
    cases kind <;> first | exact hp.elim | simp
  | comma _, _, ht => by
    obtain rfl := List.mem_singleton.mp ht
    simp
  | group _ body _, hp, ht => by
    rw [tokensAt, List.mem_append, List.mem_cons, List.mem_singleton] at ht
    obtain (rfl | ht) | rfl := ht
    · simp
    · exact links_of_mem_layout body hp ht
    · simp

theorem links_of_mem_layout {start depth previous : Nat} {t : Token} :
    (items : List Item) → Proper items → t ∈ layout start depth previous items →
      (t.partner.isSome = true ↔ t.kind = .openParen ∨ t.kind = .closeParen) ∧
      (t.next.isSome = true ↔ t.kind = .openParen ∨ t.kind = .comma) ∧
      (t.previous.isSome = true ↔ t.kind = .closeParen ∨ t.kind = .comma)
  | [], _, ht => absurd ht List.not_mem_nil
  | item :: rest, hp, ht =>
    (List.mem_append.mp ht).elim (links_of_mem_tokensAt item hp.1)
      (links_of_mem_layout rest hp.2)

end

mutual

/-- A token lies as deep as there are pairs around it. -/
theorem depth_of_tokensAt {start depth previous next m : Nat} {t : Token} :
    (item : Item) → item.All (fun l => l.symbol.Lexical) →
      (item.tokensAt start depth previous next)[m]? = some t →
        t.depth = depth + (enclosing item.symbols m).ncard
  | single l, _, ht => by
    obtain ⟨rfl, rfl⟩ : m = 0 ∧ _ = t := by
      simpa [tokensAt, List.getElem?_singleton] using ht
    simp [enclosing_zero]
  | comma _, _, ht => by
    obtain ⟨rfl, rfl⟩ : m = 0 ∧ _ = t := by
      simpa [tokensAt, List.getElem?_singleton] using ht
    simp [enclosing_zero]
  | group _ body _, hp, ht => by
    have hc : Closed true (symbolsOf body) := closed_symbolsOf body hp (by simp)
    have hl := length_symbolsOf body
    cases m with
    | zero =>
      obtain rfl := Option.some.inj ht
      simp [enclosing_zero]
    | succ m =>
      rw [tokensAt, List.cons_append, List.getElem?_cons_succ, List.getElem?_append,
        length_layout] at ht
      rw [symbols, Nat.add_comm m]
      split at ht
      next hlt =>
        rw [depth_of_layout body hp ht, ncard_enclosing_group hc (hl.symm ▸ hlt)]
        omega
      next hge =>
        obtain ⟨hm, rfl⟩ : m - widths body = 0 ∧ _ = t := by
          simpa [List.getElem?_singleton] using ht
        rw [enclosing_last (by simp; omega), Set.ncard_empty, add_zero]

theorem depth_of_layout {start depth previous m : Nat} {t : Token} :
    (items : List Item) → Proper items → (layout start depth previous items)[m]? = some t →
      t.depth = depth + (enclosing (symbolsOf items) m).ncard
  | [], _, ht => by simp [layout] at ht
  | item :: rest, hp, ht => by
    have hc := closed_symbols hp.1
    have hw := length_symbols item
    rw [layout, List.getElem?_append, length_tokensAt] at ht
    rw [symbolsOf_cons]
    split at ht
    next hlt => rw [depth_of_tokensAt item hp.1 ht, enclosing_append_left hc (hw.symm ▸ hlt)]
    next hge =>
      obtain ⟨n, rfl⟩ := Nat.exists_eq_add_of_le (Nat.le_of_not_lt hge)
      rw [Nat.add_sub_cancel_left] at ht
      rw [← hw, ncard_enclosing_append_right hc, depth_of_layout rest hp.2 ht]

end

/-- Every comma is one of a group, if none is outside of all of them. -/
theorem exists_hasGroup_of_comma (depth : Nat) {k : Nat} {items : List Item} (hc : CommaFree items)
    (hp : Proper items) (hk : (symbolsOf items)[k]? = some .comma) :
    ∃ g, HasGroup 0 depth items g ∧ k ∈ stops (g.position + 1) g.body := by
  have hne : (enclosing (symbolsOf items) k).Nonempty := by
    apply Set.nonempty_iff_ne_empty.mpr
    intro he
    have hm : k ∈ stops 0 items := (mem_stops_iff hp).mpr ⟨k, (zero_add k).symm, hk, he⟩
    rw [stops_commaFree hc] at hm
    cases hm
  obtain ⟨i, j, hi⟩ := exists_innermost hne
  obtain ⟨g, hg, rfl, rfl⟩ := (pairs_iff depth hp).mp hi.pairs
  exact ⟨g, hg, (hg.mem_stops_iff hp).mpr ⟨hk, hi⟩⟩

namespace HasGroup

variable {depth : Nat} {items : List Item} {g : Site}

theorem tokens_eq (h : HasGroup 0 depth items g) :
    ∃ before after, before.length = g.position ∧
      layout 0 depth 0 items = before ++ g.tokens ++ after := by
  obtain ⟨before, after, hl, hg⟩ := h.layout_eq 0
  exact ⟨before, after, by omega, hl⟩

theorem getElem?_position (h : HasGroup 0 depth items g) :
    (layout 0 depth 0 items)[g.position]? = some g.opening := by
  obtain ⟨before, after, hl, ht⟩ := h.tokens_eq
  rw [ht, ← hl, List.append_assoc, List.getElem?_append_right (Nat.le_refl _), Nat.sub_self]
  rfl

theorem getElem?_close (h : HasGroup 0 depth items g) :
    (layout 0 depth 0 items)[g.close]? = some g.closing := by
  obtain ⟨before, after, hl, ht⟩ := h.tokens_eq
  have hlen := g.length_inside
  rw [ht, Site.tokens, ← List.append_assoc, List.append_assoc, Site.close]
  have hb : (before ++ g.opening :: g.inside).length = g.position + 1 + widths g.body := by
    rw [List.length_append, List.length_cons, hlen]
    omega
  rw [← hb, List.getElem?_append_right (Nat.le_refl _), Nat.sub_self]
  rfl

/-- The tokens of a body stand between those of its parentheses. -/
theorem tokens_eq_inside (h : HasGroup 0 depth items g) :
    ∃ before after, before.length = g.position + 1 ∧ layout 0 depth 0 items =
      before ++ layout before.length (g.depth + 1) g.position g.body ++ after := by
  obtain ⟨before, after, hl, ht⟩ := h.tokens_eq
  have hlen : (before ++ [g.opening]).length = g.position + 1 := by simp [hl]
  refine ⟨before ++ [g.opening], g.closing :: after, hlen, ?_⟩
  rw [ht, hlen, Site.tokens, Site.inside]
  simp

theorem isChain (h : HasGroup 0 depth items g) :
    (g.position :: stops (g.position + 1) g.body ++ [g.close]).IsChain
      (Token.Joined (layout 0 depth 0 items)) := by
  obtain ⟨before, after, hl, ht⟩ := h.tokens_eq_inside
  have hopen : (layout 0 depth 0 items)[g.position]?.bind Token.next =
      some (nextStop before.length g.body) := by
    rw [h.getElem?_position, hl]
    rfl
  have hclose : (layout 0 depth 0 items)[before.length + widths g.body]?.bind Token.previous =
      some (lastStop g.position before.length g.body) := by
    have hc := h.getElem?_close
    rw [Site.close] at hc
    rw [hl, hc]
    rfl
  have hchain := isChain_layout g.body ht hopen hclose
  rwa [hl] at hchain

end HasGroup

end Item

namespace Token

open Item

/-- In a chain whose ends are known everything has a neighbour on either side. -/
theorem Joined.exists_of_isChain {tokens : List Token} {first last k : Nat} {between : List Nat}
    (h : (first :: between ++ [last]).IsChain (Joined tokens)) :
    (k ∈ first :: between → ∃ j, Joined tokens k j) ∧
      (k ∈ between ++ [last] → ∃ i, Joined tokens i k) := by
  induction between generalizing first with
  | nil =>
    have hj : Joined tokens first last := (List.isChain_cons_cons.mp h).1
    exact ⟨fun hk => ⟨last, List.mem_singleton.mp hk ▸ hj⟩,
      fun hk => ⟨first, List.mem_singleton.mp hk ▸ hj⟩⟩
  | cons next between ih =>
    obtain ⟨hj, hrest⟩ := List.isChain_cons_cons.mp h
    obtain ⟨hright, hleft⟩ := ih hrest
    constructor
    · intro hk
      obtain rfl | hk := List.mem_cons.mp hk
      · exact ⟨next, hj⟩
      · exact hright hk
    · intro hk
      obtain rfl | hk := List.mem_cons.mp hk
      · exact ⟨first, hj⟩
      · exact hleft hk

theorem symbol_eq_closeParen {t : Token} : t.symbol = .closeParen ↔ t.kind = .closeParen := by
  unfold symbol Symbol.of
  cases t.kind <;> simp

theorem symbol_eq_comma {t : Token} : t.symbol = .comma ↔ t.kind = .comma := by
  unfold symbol Symbol.of
  cases t.kind <;> simp

end Token

namespace Item

variable {depth i j k : Nat} {items : List Item} {t : Token}

theorem symbolsOf_getElem? (ht : (layout 0 depth 0 items)[k]? = some t) :
    (symbolsOf items)[k]? = some t.symbol := by
  rw [← map_symbol_layout 0 depth 0 items, List.getElem?_map, ht]
  rfl

/-- The tokens of a pair are the parentheses of a group. -/
theorem exists_hasGroup_of_pairs (depth : Nat) (hp : Proper items)
    (h : Pairs (symbolsOf items) i j) :
    ∃ g, HasGroup 0 depth items g ∧ g.position = i ∧ g.close = j ∧
      (layout 0 depth 0 items)[i]? = some g.opening ∧
      (layout 0 depth 0 items)[j]? = some g.closing := by
  obtain ⟨g, hg, rfl, rfl⟩ := (pairs_iff depth hp).mp h
  exact ⟨g, hg, rfl, rfl, hg.getElem?_position, hg.getElem?_close⟩

theorem pairs_of_opening (hp : Proper items)
    (ht : (layout 0 depth 0 items)[i]? = some t) (hk : t.kind = .openParen) :
    ∃ j, t.partner = some j ∧ Pairs (symbolsOf items) i j := by
  have hs : (symbolsOf items)[i]? = some .openParen := by
    rw [symbolsOf_getElem? ht, Token.symbol_eq_openParen.mpr hk]
  have hclosed : Closed true (symbolsOf items) := closed_symbolsOf items hp (by simp)
  obtain ⟨j, h⟩ := Pairs.exists_right hclosed hs
  obtain ⟨g, -, -, rfl, hg, -⟩ := exists_hasGroup_of_pairs depth hp h
  obtain rfl := Option.some.inj (ht.symm.trans hg)
  exact ⟨_, rfl, h⟩

theorem pairs_of_closing (hp : Proper items)
    (ht : (layout 0 depth 0 items)[j]? = some t) (hk : t.kind = .closeParen) :
    ∃ i, t.partner = some i ∧ Pairs (symbolsOf items) i j := by
  have hs : (symbolsOf items)[j]? = some .closeParen := by
    rw [symbolsOf_getElem? ht, Token.symbol_eq_closeParen.mpr hk]
  have hclosed : Closed true (symbolsOf items) := closed_symbolsOf items hp (by simp)
  obtain ⟨i, h⟩ := Pairs.exists_left hclosed hs
  obtain ⟨g, -, rfl, -, -, hg⟩ := exists_hasGroup_of_pairs depth hp h
  obtain rfl := Option.some.inj (ht.symm.trans hg)
  exact ⟨_, rfl, h⟩

theorem partner_of_pairs (hp : Proper items) (h : Pairs (symbolsOf items) i j) :
    (layout 0 depth 0 items)[i]?.bind Token.partner = some j ∧
      (layout 0 depth 0 items)[j]?.bind Token.partner = some i := by
  obtain ⟨g, -, rfl, rfl, hi, hj⟩ := exists_hasGroup_of_pairs depth hp h
  rw [hi, hj]
  exact ⟨rfl, rfl⟩

/-- Partners are a pair, one way or the other. -/
theorem pairs_of_partner (hp : Proper items)
    (h : (layout 0 depth 0 items)[i]?.bind Token.partner = some j) :
    Pairs (symbolsOf items) i j ∨ Pairs (symbolsOf items) j i := by
  obtain ⟨t, ht, hj⟩ := Option.bind_eq_some_iff.mp h
  have hk := (links_of_mem_layout items hp (List.mem_of_getElem? ht)).1.mp (by rw [hj]; rfl)
  obtain hk | hk := hk
  · obtain ⟨j', hj', hpairs⟩ := pairs_of_opening hp ht hk
    obtain rfl := Option.some.inj (hj.symm.trans hj')
    exact .inl hpairs
  · obtain ⟨i', hi', hpairs⟩ := pairs_of_closing hp ht hk
    obtain rfl := Option.some.inj (hj.symm.trans hi')
    exact .inr hpairs

/-- Of two links between parentheses, the one that begins inside the other ends inside it. -/
theorem partner_nested (hp : Proper items) {i' j' : Nat}
    (h : (layout 0 depth 0 items)[i]?.bind Token.partner = some j)
    (h' : (layout 0 depth 0 items)[i']?.bind Token.partner = some j') (hi : i < i')
    (hj : i' < j) : i < j' ∧ j' < j := by
  obtain hij | hji := pairs_of_partner hp h
  · obtain hij' | hji' := pairs_of_partner hp h'
    · exact ⟨hi.trans hij'.lt, hij.nested hij' hi hj⟩
    · refine ⟨?_, hji'.lt.trans hj⟩
      -- a pair that began before `i` would have to end after `j`
      obtain hlt | rfl | hgt := Nat.lt_trichotomy i j'
      · exact hlt
      · exact absurd (hij.right_unique hji') hj.ne'
      · exact absurd (hji'.nested hij hgt hi) (Nat.lt_asymm hj)
  · exact absurd (hi.trans hj) (Nat.lt_asymm hji.lt)

theorem joined_of_next (hc : CommaFree items) (hp : Proper items)
    (h : (layout 0 depth 0 items)[i]?.bind Token.next = some j) :
    Token.Joined (layout 0 depth 0 items) i j := by
  obtain ⟨t, ht, hj⟩ := Option.bind_eq_some_iff.mp h
  have hk := (links_of_mem_layout items hp (List.mem_of_getElem? ht)).2.1.mp (by rw [hj]; rfl)
  -- whatever has a link forward is in the chain of a group, and not the last in it
  obtain ⟨g, hg, hi⟩ : ∃ g, HasGroup 0 depth items g ∧
      i ∈ g.position :: stops (g.position + 1) g.body := by
    obtain hk | hk := hk
    · obtain ⟨l, -, hpairs⟩ := pairs_of_opening hp ht hk
      obtain ⟨g, hg, rfl, -⟩ := (pairs_iff depth hp).mp hpairs
      exact ⟨g, hg, List.mem_cons_self ..⟩
    · have hs : (symbolsOf items)[i]? = some .comma := by
        rw [symbolsOf_getElem? ht, Token.symbol_eq_comma.mpr hk]
      obtain ⟨g, hg, hm⟩ := exists_hasGroup_of_comma depth hc hp hs
      exact ⟨g, hg, List.mem_cons_of_mem _ hm⟩
  obtain ⟨l, hl⟩ := (Token.Joined.exists_of_isChain hg.isChain).1 hi
  obtain rfl := Option.some.inj (h.symm.trans hl.next)
  exact hl

theorem joined_of_previous (hc : CommaFree items) (hp : Proper items)
    (h : (layout 0 depth 0 items)[j]?.bind Token.previous = some i) :
    Token.Joined (layout 0 depth 0 items) i j := by
  obtain ⟨t, ht, hi⟩ := Option.bind_eq_some_iff.mp h
  have hk := (links_of_mem_layout items hp (List.mem_of_getElem? ht)).2.2.mp (by rw [hi]; rfl)
  obtain ⟨g, hg, hj⟩ : ∃ g, HasGroup 0 depth items g ∧
      j ∈ stops (g.position + 1) g.body ++ [g.close] := by
    obtain hk | hk := hk
    · obtain ⟨l, -, hpairs⟩ := pairs_of_closing hp ht hk
      obtain ⟨g, hg, -, rfl⟩ := (pairs_iff depth hp).mp hpairs
      exact ⟨g, hg, List.mem_append_right _ (List.mem_singleton_self _)⟩
    · have hs : (symbolsOf items)[j]? = some .comma := by
        rw [symbolsOf_getElem? ht, Token.symbol_eq_comma.mpr hk]
      obtain ⟨g, hg, hm⟩ := exists_hasGroup_of_comma depth hc hp hs
      exact ⟨g, hg, List.mem_append_left _ hm⟩
  obtain ⟨l, hl⟩ := (Token.Joined.exists_of_isChain hg.isChain).2 hj
  obtain rfl := Option.some.inj (h.symm.trans hl.previous)
  exact hl

theorem chain_of_pairs (hp : Proper items) (h : Pairs (symbolsOf items) i j) :
    ∃ stops : List Nat, stops.Pairwise (· < ·) ∧
      (∀ k, k ∈ stops ↔ (symbolsOf items)[k]? = some .comma ∧
        Innermost (symbolsOf items) i k j) ∧
      (i :: stops ++ [j]).IsChain
        (fun a b => (layout 0 depth 0 items)[a]?.bind Token.next = some b) ∧
      (layout 0 depth 0 items)[j]?.bind Token.next = none := by
  obtain ⟨g, hg, rfl, rfl, -, hclose⟩ := exists_hasGroup_of_pairs depth hp h
  refine ⟨stops (g.position + 1) g.body, pairwise_stops _ _, fun k => hg.mem_stops_iff hp,
    hg.isChain.imp fun _ _ => Token.Joined.next, ?_⟩
  rw [hclose]
  rfl

theorem depth_partner (hp : Proper items) {u : Token}
    (ht : (layout 0 depth 0 items)[i]? = some t) (hj : t.partner = some j)
    (hu : (layout 0 depth 0 items)[j]? = some u) : u.depth = t.depth := by
  have hpartner : (layout 0 depth 0 items)[i]?.bind Token.partner = some j := by
    rw [ht]
    exact hj
  obtain h | h := pairs_of_partner hp hpartner
  · obtain ⟨g, -, -, -, hopen, hclose⟩ := exists_hasGroup_of_pairs depth hp h
    obtain rfl := Option.some.inj (ht.symm.trans hopen)
    obtain rfl := Option.some.inj (hu.symm.trans hclose)
    rfl
  · obtain ⟨g, -, -, -, hopen, hclose⟩ := exists_hasGroup_of_pairs depth hp h
    obtain rfl := Option.some.inj (ht.symm.trans hclose)
    obtain rfl := Option.some.inj (hu.symm.trans hopen)
    rfl

/-- Items laid out have the links that their symbols ask for. -/
theorem linked_layout (hc : CommaFree items) (hp : Proper items) :
    Token.Linked depth (layout 0 depth 0 items) := by
  have hs : (layout 0 depth 0 items).map Token.symbol = symbolsOf items := map_symbol_layout ..
  have hbound {k l : Nat} {f : Token → Option Nat}
      (h : (layout 0 depth 0 items)[k]?.bind f = some l) : k < (layout 0 depth 0 items).length := by
    obtain ⟨u, hu, -⟩ := Option.bind_eq_some_iff.mp h
    exact (List.getElem?_eq_some_iff.mp hu).1
  have hinvolution {i j : Nat} (h : (layout 0 depth 0 items)[i]?.bind Token.partner = some j) :
      (layout 0 depth 0 items)[j]?.bind Token.partner = some i := by
    obtain h | h := pairs_of_partner hp h
    · exact (partner_of_pairs hp h).2
    · exact (partner_of_pairs hp h).1
  constructor
  case partner_isSome => exact fun t ht => (links_of_mem_layout items hp ht).1
  case opening =>
    intro i t ht hk
    obtain ⟨j, hj, h⟩ := pairs_of_opening hp ht hk
    exact ⟨j, h.lt, hj, hs.symm ▸ h⟩
  case closing =>
    intro j t ht hk
    obtain ⟨i, hi, h⟩ := pairs_of_closing hp ht hk
    exact ⟨i, h.lt, hi, hs.symm ▸ h⟩
  case involution => exact fun i j h => hinvolution h
  case nested => exact fun i j i' j' h h' hi hj => partner_nested hp h h' hi hj
  case depth =>
    intro k t ht
    rw [hs]
    exact depth_of_layout items hp ht
  case depth_partner => exact fun i j t u ht hj hu => depth_partner hp ht hj hu
  case chain =>
    rw [hs]
    exact fun i j h => chain_of_pairs hp h
  case inverse =>
    exact fun i j => ⟨fun h => (joined_of_next hc hp h).previous,
      fun h => (joined_of_previous hc hp h).next⟩
  case unlinked =>
    intro t ht hopen hclose hcomma
    obtain ⟨hpartner, hnext, hprevious⟩ := links_of_mem_layout items hp ht
    simpa [hopen, hclose, hcomma] using And.intro hpartner (And.intro hprevious hnext)
  case bounded =>
    intro t ht k hk
    obtain ⟨i, hi⟩ := List.getElem?_of_mem ht
    obtain hk | hk | hk := hk
    · exact hbound (hinvolution (by rw [hi]; exact hk))
    · exact hbound (joined_of_previous hc hp (by rw [hi]; exact hk)).next
    · exact hbound (joined_of_next hc hp (by rw [hi]; exact hk)).previous

end Item

namespace Token

theorem scan_eq_layout {text : String} {tokens : List Token} (h : scan text = .ok tokens) :
    ∃ items, Item.ofChars text.toList = .ok items ∧ tokens = Item.layout 0 0 0 items ∧
      Item.CommaFree items ∧ Item.Proper items := by
  obtain ⟨items, hi, rfl⟩ := map_eq_ok_iff.mp h
  exact ⟨items, hi, rfl, Item.proper_ofChars hi⟩

/-- Whatever text is lexed, its tokens are linked as their parentheses and commas have it. -/
theorem linked_of_scan {text : String} {tokens : List Token} (h : scan text = .ok tokens) :
    Linked 0 tokens := by
  obtain ⟨items, -, rfl, hc, hp⟩ := scan_eq_layout h
  exact Item.linked_layout hc hp

theorem linked_of_scan_nested : ∃ tokens, scan "f((a, b[3], ()), c[])" = .ok tokens ∧
    tokens.length = 15 ∧ Linked 0 tokens := by
  have h : scan "f((a, b[3], ()), c[])" =
      .ok ((scan "f((a, b[3], ()), c[])").toOption.getD []) := eq_ok_of_toOption (by decide +kernel)
  exact ⟨_, h, by decide +kernel, linked_of_scan h⟩

end Token

end ContractAbi
