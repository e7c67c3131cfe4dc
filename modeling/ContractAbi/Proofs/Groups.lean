import ContractAbi.Proofs.Reading

/-!
Reading groups. A cursor that stands before laid out items finds a group where the items have one,
and gets cursors of the same sort for what stands between its commas.
-/

namespace ContractAbi

namespace Item

/-- The items of a group, as its reader finds them: none in an empty group. -/
def Parts (body : List Item) (parts : List (List Item)) : Prop :=
  if body = [] then parts = [] else Divides body parts

theorem exists_parts (body : List Item) : ∃ parts, Parts body parts := by
  unfold Parts
  split
  · exact ⟨[], rfl⟩
  · exact exists_divides body

theorem Divides.of_mem {body part : List Item} {parts : List (List Item)} (hd : Divides body parts)
    (hp : Proper body) (hm : part ∈ parts) :
    CommaFree part ∧ Proper part ∧ widths part ≤ widths body := by
  induction hd with
  | last h =>
    obtain rfl := List.mem_singleton.mp hm
    exact ⟨h, hp, Nat.le_refl _⟩
  | comma h _ ih =>
    obtain ⟨hpart, -, hrest⟩ := allOf_append.mp hp
    rw [widths_append, widths_cons]
    obtain rfl | hm := List.mem_cons.mp hm
    · exact ⟨h, hpart, Nat.le_add_right _ _⟩
    · obtain ⟨hc, hpm, hw⟩ := ih hrest hm
      exact ⟨hc, hpm, by omega⟩

theorem Parts.of_mem {body part : List Item} {parts : List (List Item)} (hd : Parts body parts)
    (hp : Proper body) (hm : part ∈ parts) :
    CommaFree part ∧ Proper part ∧ widths part ≤ widths body := by
  unfold Parts at hd
  split at hd
  next =>
    subst hd
    cases hm
  next => exact hd.of_mem hp hm

theorem layout_group (start depth previous openAt closeAt : Nat) (body after : List Item) :
    ∃ t past, past ≠ [] ∧ t.kind = .openParen ∧ t.partner = some (start + 1 + widths body) ∧
      t.next = some (nextStop (start + 1) body) ∧
      layout start depth previous (group openAt body closeAt :: after) =
        t :: layout (start + 1) (depth + 1) start body ++ past := by
  rw [layout, tokensAt, List.append_assoc]
  exact ⟨_, _, List.cons_ne_nil _ _, rfl, rfl, rfl, rfl⟩

end Item

namespace Cursor

open Item

/-- What is left to be read is the layout of these items, which stand between two stops. -/
structure Holds (c : Cursor) (depth : Nat) (items : List Item) : Prop where
  unread : ∃ previous, c.unread = layout c.position depth previous items
  commaFree : CommaFree items
  proper : Proper items

theorem holds_ofItems {items : List Item} (hc : CommaFree items) (hp : Proper items) (depth : Nat) :
    (ofItems depth items).Holds depth items := ⟨⟨0, rfl⟩, hc, hp⟩

namespace Holds

variable {c c' : Cursor} {depth : Nat} {items rest : List Item}

theorem symbols (h : c.Holds depth items) : c.symbols = symbolsOf items := by
  obtain ⟨previous, hu⟩ := h.unread
  rw [Cursor.symbols, hu, map_symbol_layout]

theorem advance (part : List Item) (h : c.Holds depth (part ++ rest)) :
    (c.advance (widths part)).Holds depth rest := by
  obtain ⟨previous, hu⟩ := h.unread
  obtain ⟨hpart, hrest⟩ := commaFree_append.mp h.commaFree
  refine ⟨⟨previous, ?_⟩, hrest, (allOf_append.mp h.proper).2⟩
  rw [unread_advance, hu, layout_append hpart _ _ previous previous]
  exact List.drop_left' (length_layout _ _ _ part)

theorem closed (h : c.Holds depth items) : Closed false c.symbols := by
  rw [h.symbols]
  exact closed_symbolsOf items h.proper fun _ => h.commaFree

theorem lexical (h : c.Holds depth items) {s : Symbol} (hs : s.isStructural = false)
    (hm : s ∈ c.symbols) : s.Lexical :=
  lexical_of_mem_symbolsOf hs items h.proper (h.symbols ▸ hm)

/-- The items begin with what the symbols begin with. -/
theorem eq_single {s : Symbol} {ss : List Symbol} (hs : s.isStructural = false)
    (h : c.Holds depth items) (he : c.symbols = s :: ss) :
    ∃ l rest, items = .single l :: rest := by
  obtain ⟨l, rest, hi, -⟩ := eq_single_cons (h.symbols ▸ he) hs
  exact ⟨l, rest, hi⟩

theorem eq_group {ss : List Symbol} (h : c.Holds depth items) (he : c.symbols = .openParen :: ss) :
    ∃ openAt body closeAt rest, items = .group openAt body closeAt :: rest :=
  eq_group_cons h.proper (h.symbols ▸ he)

theorem symbolsOf_body {openAt closeAt : Nat} {body after : List Item} {inner ss : List Symbol}
    (h : c.Holds depth (.group openAt body closeAt :: after)) (hi : Closed true inner)
    (hs : c.symbols = .openParen :: inner ++ .closeParen :: ss) : symbolsOf body = inner := by
  have hbody : Closed true (symbolsOf body) := closed_symbolsOf body h.proper.1 (by simp)
  rw [h.symbols, symbolsOf_cons, Item.symbols] at hs
  simp only [List.cons_append, List.append_assoc, List.cons.injEq, true_and, List.nil_append] at hs
  exact (hbody.unique hi (.inl rfl) (.inl rfl) hs).1

/-- What is left after symbols whose parentheses balance is laid out as well. -/
theorem advance_closed {ts : List Symbol} (ht : Closed false ts) (h : c.Holds depth items)
    {ss : List Symbol} (hs : c.symbols = ts ++ ss) :
    ∃ rest, (c.advance ts.length).Holds depth rest ∧ widths rest ≤ widths items := by
  generalize hl : false = listed at ht
  -- on how the symbols balance: a leaf takes one item, and so does a group, whose body has the same
  -- symbols inside because both end at the same parenthesis
  induction ht generalizing c items with
  | nil => exact ⟨items, h, Nat.le_refl _⟩
  | leaf hleaf _ ih =>
    subst hl
    obtain ⟨l, rest, rfl⟩ := h.eq_single hleaf hs
    have hrest : (c.advance 1).Holds depth rest := advance [.single l] h
    obtain ⟨rest', hr, hw⟩ := ih hrest (by rw [symbols_advance, hs]; rfl) rfl
    rw [advance_advance, Nat.add_comm] at hr
    exact ⟨rest', hr, hw.trans (Nat.le_add_left _ _)⟩
  | comma => cases hl
  | @group _ inner ts hi _ _ ih =>
    subst hl
    rw [List.append_assoc, List.cons_append] at hs
    obtain ⟨openAt, body, closeAt, after, rfl⟩ := h.eq_group hs
    obtain rfl := h.symbolsOf_body hi hs
    have hl :
        (Symbol.openParen :: symbolsOf body ++ [Symbol.closeParen]).length = widths body + 2 := by
      rw [List.length_append, List.length_cons, length_symbolsOf, List.length_singleton]
    have hrest : (c.advance (widths body + 2)).Holds depth after :=
      advance [group openAt body closeAt] h
    have hsym : (c.advance (widths body + 2)).symbols = ts ++ ss := by
      rw [← hl]
      apply symbols_advance_of_eq
      rw [hs, List.append_assoc]
      rfl
    obtain ⟨rest', hr, hw⟩ := ih hrest hsym rfl
    rw [advance_advance, ← hl, ← List.length_append, List.append_assoc] at hr
    exact ⟨rest', hr, hw.trans (Nat.le_add_left _ _)⟩

/-- The tokens around a group: its parenthesis with two links, what stands inside, and the rest. -/
theorem group_tokens {openAt closeAt : Nat} {body after : List Item}
    (h : c.Holds depth (.group openAt body closeAt :: after)) :
    ∃ before t past, past ≠ [] ∧ before.length = c.position ∧ t.kind = .openParen ∧
      t.partner = some (before.length + 1 + widths body) ∧
      t.next = some (nextStop (before.length + 1) body) ∧
      c.tokens =
        before ++ t :: layout (before.length + 1) (depth + 1) before.length body ++ past := by
  obtain ⟨previous, hu⟩ := h.unread
  have hlt : c.position < c.tokens.length := by
    apply Nat.lt_of_not_le
    intro hle
    rw [Cursor.unread, List.drop_eq_nil_of_le hle] at hu
    cases hu
  have hl : (c.tokens.take c.position).length = c.position := List.length_take_of_le hlt.le
  obtain ⟨t, past, hp, hk, hpartner, hn, ht⟩ :=
    layout_group c.position depth previous openAt closeAt body after
  refine ⟨c.tokens.take c.position, t, past, hp, hl, hk, hl.symm ▸ hpartner, hl.symm ▸ hn, ?_⟩
  rw [hl, List.append_assoc, List.cons_append, ← List.cons_append, ← ht, ← hu, Cursor.unread,
    List.take_append_drop]

end Holds

/-- A group's items are the cursors over its parts. -/
theorem items_layout {c : Cursor} {before past : List Token} {t : Token} {body : List Item}
    {parts : List (List Item)} {depth previous : Nat} (hb : before.length = c.position)
    (hn : t.next = some (nextStop (before.length + 1) body))
    (hc : c.tokens = before ++ t :: layout (before.length + 1) depth previous body ++ past)
    (hp : Parts body parts) :
    c.items (before.length + 1 + widths body) = .ok (parts.map (ofItems depth)) := by
  rw [items, ← hb]
  unfold Parts at hp
  split at hp
  next h =>
    subst h hp
    rw [widths_nil, if_pos rfl]
    rfl
  next h =>
    have hw : widths body ≠ 0 := by
      obtain ⟨item, rest, rfl⟩ := List.exists_cons_of_ne_nil h
      have := width_pos item
      rw [widths_cons]
      omega
    rw [if_neg (by omega), show before.length + 1 + widths body - before.length =
      widths body + 1 by omega]
    exact itemsFrom_layout hp hn hc (Nat.lt_succ_self _)

end Cursor

namespace Reads

open Item

variable {c c' : Cursor}

theorem groupEnd_iff {close : Nat} :
    Reads Reader.groupEnd c close c' ↔
      ∃ t, c.peek? = some t ∧ t.kind = .openParen ∧ c.close? t = some close ∧ c' = c := by
  rw [Reader.groupEnd, peek_bind_iff]
  apply exists_congr
  intro t
  apply and_congr_right
  intro ht
  by_cases hk : t.kind = .openParen
  · rw [if_pos hk, get_bind_iff]
    cases c.close? t with
    | none => simp
    | some close' => simp [hk, @eq_comm _ close']
  · simp [hk]

theorem popItems_iff {cs : List Cursor} :
    Reads Reader.popItems c cs c' ↔
      ∃ t close, c.peek? = some t ∧ t.kind = .openParen ∧ c.close? t = some close ∧
        c.items close = .ok cs ∧ c' = { c with position := close + 1 } := by
  rw [Reader.popItems, bind_iff]
  simp only [groupEnd_iff, get_bind_iff]
  constructor
  · rintro ⟨close, d, ⟨t, ht, hk, hcl, rfl⟩, hr⟩
    rw [bind_iff] at hr
    obtain ⟨parts, d, hp, hr⟩ := hr
    obtain ⟨hp, rfl⟩ := liftExcept_iff.mp hp
    rw [set_bind_iff, pure_iff] at hr
    obtain ⟨rfl, rfl⟩ := hr
    exact ⟨t, close, ht, hk, hcl, hp, rfl⟩
  · rintro ⟨t, close, ht, hk, hcl, hp, rfl⟩
    refine ⟨close, c, ⟨t, ht, hk, hcl, rfl⟩, ?_⟩
    rw [bind_iff]
    exact ⟨cs, c, liftExcept_iff.mpr ⟨hp, rfl⟩, pure_iff.mpr ⟨rfl, rfl⟩⟩

/-- Before the parenthesis of a group, its reader takes it whole and finds its parts. -/
theorem popItems_opening_iff {before past : List Token} {t : Token} {body : List Item}
    {depth previous : Nat} {cs : List Cursor} (hpast : past ≠ []) (hb : before.length = c.position)
    (hk : t.kind = .openParen) (hpartner : t.partner = some (before.length + 1 + widths body))
    (hn : t.next = some (nextStop (before.length + 1) body))
    (hc : c.tokens = before ++ t :: layout (before.length + 1) depth previous body ++ past) :
    Reads Reader.popItems c cs c' ↔
      (∃ parts, Parts body parts ∧ cs = parts.map (Cursor.ofItems depth)) ∧
        c' = c.advance (widths body + 2) := by
  have ht : c.peek? = some t := by
    rw [Cursor.peek?, ← hb, hc, List.append_assoc, List.cons_append,
      List.getElem?_append_right (Nat.le_refl _), Nat.sub_self, List.getElem?_cons_zero]
  have hlen : before.length + 1 + widths body < c.tokens.length := by
    have := List.length_pos_iff.mpr hpast
    rw [hc, List.length_append, List.length_append, List.length_cons, length_layout]
    omega
  have hclose : c.close? t = some (before.length + 1 + widths body) := by
    rw [Cursor.close?, hpartner]
    exact Option.filter_some_pos (by simp; omega)
  have hmove : { c with position := before.length + 1 + widths body + 1 } =
      c.advance (widths body + 2) := by
    rw [Cursor.advance, ← hb]
    congr 1
    omega
  rw [popItems_iff]
  constructor
  · rintro ⟨u, close, hu, -, hcl, hi, rfl⟩
    obtain rfl : t = u := by simpa [ht] using hu
    obtain rfl : before.length + 1 + widths body = close := by simpa [hclose] using hcl
    obtain ⟨parts, hp⟩ := exists_parts body
    rw [Cursor.items_layout hb hn hc hp, Except.ok.injEq] at hi
    exact ⟨⟨parts, hp, hi.symm⟩, hmove⟩
  · rintro ⟨⟨parts, hp, rfl⟩, rfl⟩
    exact ⟨t, _, ht, hk, hclose, Cursor.items_layout hb hn hc hp, hmove.symm⟩

theorem popItems_group_iff {depth openAt closeAt : Nat} {body after : List Item} {cs : List Cursor}
    (h : c.Holds depth (.group openAt body closeAt :: after)) :
    Reads Reader.popItems c cs c' ↔
      (∃ parts, Parts body parts ∧ cs = parts.map (Cursor.ofItems (depth + 1))) ∧
        c' = c.advance (widths body + 2) := by
  obtain ⟨before, t, past, hpast, hb, hk, hpartner, hn, hc⟩ := h.group_tokens
  exact popItems_opening_iff hpast hb hk hpartner hn hc

end Reads

end ContractAbi
