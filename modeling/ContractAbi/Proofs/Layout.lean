import ContractAbi.Cursor.Basic
import ContractAbi.Proofs.Symbol

/-!
Cutting groups out of laid out items. The tokens between two stops of a group's chain are the layout
of the items there, so a cursor over them is as good as one over a text of their own.
-/

namespace ContractAbi

namespace Item

@[simp] theorem widths_nil : widths [] = 0 := rfl

@[simp] theorem widths_cons (item : Item) (rest : List Item) :
    widths (item :: rest) = item.width + widths rest := rfl

@[simp] theorem widths_append (xs ys : List Item) : widths (xs ++ ys) = widths xs + widths ys := by
  induction xs with
  | nil => simp
  | cons x xs ih =>
    rw [List.cons_append, widths_cons, widths_cons, ih]
    omega

theorem length_symbolsOf (items : List Item) : (symbolsOf items).length = widths items := by
  rw [← map_symbol_layout 0 0 0 items, List.length_map, length_layout]

/-- The stretches of a group's items between its commas. -/
inductive Divides : List Item → List (List Item) → Prop where
  | last {part : List Item} (h : CommaFree part) : Divides part [part]
  | comma {part rest : List Item} {parts : List (List Item)} {offset : Nat}
      (h : CommaFree part) (hr : Divides rest parts) :
      Divides (part ++ .comma offset :: rest) (part :: parts)

theorem exists_divides (items : List Item) : ∃ parts, Divides items parts := by
  induction items with
  | nil => exact ⟨[[]], .last commaFree_nil⟩
  | cons item rest ih =>
    obtain ⟨parts, hd⟩ := ih
    cases hc : item.isComma with
    | true =>
      cases item with
      | comma offset => exact ⟨_, .comma commaFree_nil hd⟩
      | single | group => cases hc
    | false =>
      cases hd with
      | last h => exact ⟨_, .last (commaFree_cons.mpr ⟨hc, h⟩)⟩
      | comma h hr => exact ⟨_, .comma (commaFree_cons.mpr ⟨hc, h⟩) hr⟩

theorem nextStop_le (start : Nat) (items : List Item) :
    nextStop start items ≤ start + widths items := by
  induction items generalizing start with
  | nil => exact Nat.le_refl start
  | cons item rest ih =>
    rw [widths_cons, ← Nat.add_assoc]
    cases item with
    | comma => exact Nat.le_trans (Nat.le_add_right _ _) (Nat.le_add_right _ _)
    | single | group => exact ih _

theorem nextStop_add (first start : Nat) (items : List Item) :
    nextStop (first + start) items = first + nextStop start items := by
  induction items generalizing start with
  | nil => rfl
  | cons item rest ih =>
    cases item with
    | comma => rfl
    | single | group => rw [nextStop, nextStop, Nat.add_assoc, ih] <;> simp

theorem nextStop_cons {item : Item} (h : item.isComma = false) (start : Nat) (rest : List Item) :
    nextStop start (item :: rest) = nextStop (start + item.width) rest := by
  cases item with
  | comma => cases h
  | single | group => rfl

theorem nextStop_append {part : List Item} (h : CommaFree part) (start : Nat) (rest : List Item) :
    nextStop start (part ++ rest) = nextStop (start + widths part) rest := by
  induction part generalizing start with
  | nil => rfl
  | cons item part ih =>
    obtain ⟨hi, h⟩ := commaFree_cons.mp h
    rw [List.cons_append, nextStop_cons hi, ih h, widths_cons, Nat.add_assoc]

theorem nextStop_commaFree {part : List Item} (h : CommaFree part) (start : Nat) :
    nextStop start part = start + widths part := by
  have hn := nextStop_append h start []
  rwa [List.append_nil, nextStop] at hn

theorem stopAfter_add (first previous start : Nat) (item : Item) :
    item.stopAfter (first + previous) (first + start) = first + item.stopAfter previous start := by
  cases item <;> rfl

theorem lastStop_add (first previous start : Nat) (items : List Item) :
    lastStop (first + previous) (first + start) items = first + lastStop previous start items := by
  induction items generalizing previous start with
  | nil => rfl
  | cons item rest ih => rw [lastStop, lastStop, stopAfter_add, Nat.add_assoc, ih]

theorem width_pos (item : Item) : 0 < item.width := by cases item <;> simp [width]

theorem eq_nil_of_widths {items : List Item} (h : widths items = 0) : items = [] := by
  cases items with
  | nil => rfl
  | cons item rest =>
    have := width_pos item
    rw [widths_cons] at h
    omega

theorem stopAfter_lt {previous start : Nat} (h : previous < start) (item : Item) :
    item.stopAfter previous start < start + item.width := by
  have hw := width_pos item
  cases item <;> simp only [stopAfter] <;> omega

theorem lastStop_lt {previous start : Nat} (h : previous < start) (items : List Item) :
    lastStop previous start items < start + widths items := by
  induction items generalizing previous start with
  | nil => exact h
  | cons item rest ih =>
    rw [lastStop, widths_cons, ← Nat.add_assoc]
    exact ih (stopAfter_lt h item)

/-- Only commas know of the stops around them. -/
theorem tokensAt_eq {item : Item} (h : item.isComma = false) (start depth p n q m : Nat) :
    item.tokensAt start depth p n = item.tokensAt start depth q m := by
  cases item with
  | comma => cases h
  | single | group => rfl

theorem stopAfter_eq {item : Item} (h : item.isComma = false) (previous start : Nat) :
    item.stopAfter previous start = previous := by
  cases item with
  | comma => cases h
  | single | group => rfl

theorem layout_append {part : List Item} (h : CommaFree part) (start depth previous p : Nat)
    (rest : List Item) :
    layout start depth previous (part ++ rest) =
      layout start depth p part ++ layout (start + widths part) depth previous rest := by
  induction part generalizing start with
  | nil => rfl
  | cons item part ih =>
    obtain ⟨hi, h⟩ := commaFree_cons.mp h
    rw [List.cons_append, layout, layout, stopAfter_eq hi, stopAfter_eq hi, ih h, widths_cons,
      Nat.add_assoc, List.append_assoc, tokensAt_eq hi]

theorem layout_eq {part : List Item} (h : CommaFree part) (start depth p q : Nat) :
    layout start depth p part = layout start depth q part := by
  have hl := layout_append h start depth p q []
  rwa [List.append_nil, layout, List.append_nil] at hl

mutual

/-- An item with what `f` makes of its offsets in their place. -/
def relocate (f : Nat → Nat) : Item → Item
  | single l => single { l with offset := f l.offset }
  | comma offset => comma (f offset)
  | group openAt body closeAt => group (f openAt) (relocateAll f body) (f closeAt)

def relocateAll (f : Nat → Nat) : List Item → List Item
  | [] => []
  | item :: rest => item.relocate f :: relocateAll f rest

end

section Relocate

variable (f : Nat → Nat)

theorem relocateAll_eq_map (items : List Item) : relocateAll f items = items.map (relocate f) := by
  induction items with
  | nil => rfl
  | cons item rest ih => rw [relocateAll, ih, List.map_cons]

theorem relocateAll_append (xs ys : List Item) :
    relocateAll f (xs ++ ys) = relocateAll f xs ++ relocateAll f ys := by
  simp only [relocateAll_eq_map, List.map_append]

theorem isComma_relocate (item : Item) : (item.relocate f).isComma = item.isComma := by
  cases item <;> rfl

theorem commaFree_relocateAll {items : List Item} :
    CommaFree (relocateAll f items) ↔ CommaFree items := by
  simp [CommaFree, relocateAll_eq_map, isComma_relocate]

mutual

theorem width_relocate : (item : Item) → (item.relocate f).width = item.width
  | single _ | comma _ => rfl
  | group _ body _ => by rw [relocate, width, width, widths_relocateAll body]

theorem widths_relocateAll : (items : List Item) → widths (relocateAll f items) = widths items
  | [] => rfl
  | item :: rest => by
    rw [relocateAll, widths_cons, widths_cons, width_relocate item, widths_relocateAll rest]

end

theorem nextStop_relocateAll (start : Nat) (items : List Item) :
    nextStop start (relocateAll f items) = nextStop start items := by
  induction items generalizing start with
  | nil => rfl
  | cons item rest ih =>
    cases hi : item.isComma with
    | true =>
      cases item with
      | single | group => cases hi
      | comma => rfl
    | false =>
      rw [relocateAll, nextStop_cons (by rwa [isComma_relocate]), nextStop_cons hi,
        width_relocate, ih]

theorem stopAfter_relocate (previous start : Nat) (item : Item) :
    (item.relocate f).stopAfter previous start = item.stopAfter previous start := by
  cases item <;> rfl

theorem lastStop_relocateAll (previous start : Nat) (items : List Item) :
    lastStop previous start (relocateAll f items) = lastStop previous start items := by
  induction items generalizing previous start with
  | nil => rfl
  | cons item rest ih =>
    rw [relocateAll, lastStop, lastStop, stopAfter_relocate, width_relocate, ih]

mutual

/-- Neither where items stand nor how deep they lie has to do with their links. -/
theorem tokensAt_relocate (d start depth previous next : Nat) :
    (item : Item) → (item.relocate f).tokensAt start (d + depth) previous next =
      (item.tokensAt start depth previous next).map
        fun t => { t with offset := f t.offset, depth := d + t.depth }
  | single _ => rfl
  | comma _ => rfl
  | group _ body _ => by
    have hb := layout_relocateAll d (start + 1) (depth + 1) start body
    rw [← Nat.add_assoc] at hb
    rw [relocate, tokensAt, tokensAt, widths_relocateAll, nextStop_relocateAll,
      lastStop_relocateAll, hb]
    simp

theorem layout_relocateAll (d start depth previous : Nat) :
    (items : List Item) → layout start (d + depth) previous (relocateAll f items) =
      (layout start depth previous items).map
        fun t => { t with offset := f t.offset, depth := d + t.depth }
  | [] => rfl
  | item :: rest => by
    rw [relocateAll, layout, layout, List.map_append, width_relocate, nextStop_relocateAll,
      stopAfter_relocate, tokensAt_relocate d _ depth _ _ item,
      layout_relocateAll d _ depth _ rest]

end

end Relocate

end Item

namespace Cursor

/-- A token with its links as seen from the tokens `first` up to `past`. -/
def rebased (first past : Nat) (t : Token) : Token :=
  { t with
    partner := rebase first past t.partner
    previous := rebase first past t.previous
    next := rebase first past t.next }

theorem slice_eq (c : Cursor) (first past : Nat) :
    c.slice first past = ofTokens (((c.tokens.take past).drop first).map (rebased first past)) :=
  rfl

theorem rebase_none (first past : Nat) : rebase first past none = none := rfl

theorem rebase_some {first past i : Nat} (h : first + i < past) :
    rebase first past (some (first + i)) = some i := by
  rw [rebase, Option.filter_some_pos (by simp [h]), Option.map_some, Nat.add_sub_cancel_left]

end Cursor

namespace Item

open Cursor

mutual

theorem map_rebased_tokensAt {first past start depth previous next : Nat} :
    (item : Item) → first + start + item.width ≤ past → first + previous < past →
      first + next < past →
      (item.tokensAt (first + start) depth (first + previous) (first + next)).map
        (rebased first past) = item.tokensAt start depth previous next
  | single _, _, _, _ => rfl
  | comma _, _, hp, hn => by
    simp only [tokensAt, List.map_cons, List.map_nil, rebased, rebase_none, rebase_some hp,
      rebase_some hn]
  | group _ body _, h, _, _ => by
    simp only [width] at h
    have hb : (layout (first + (start + 1)) (depth + 1) (first + start) body).map
        (rebased first past) = layout (start + 1) (depth + 1) start body :=
      map_rebased_layout body (by omega) (by omega)
    have hs := nextStop_le (start + 1) body
    have hl : lastStop start (start + 1) body < start + 1 + widths body :=
      lastStop_lt (Nat.lt_succ_self start) body
    have hopen : first + start + 1 = first + (start + 1) := Nat.add_assoc ..
    have hclose : first + (start + 1) + widths body = first + (start + 1 + widths body) :=
      Nat.add_assoc ..
    -- the links of both parentheses lead to tokens of the group itself, which lie below `past`
    rw [tokensAt, tokensAt, hopen, hclose, nextStop_add, lastStop_add]
    simp only [List.map_cons, List.map_nil, List.map_append, rebased, rebase_none, hb]
    rw [rebase_some (by omega), rebase_some (by omega), rebase_some (by omega),
      rebase_some (by omega)]

theorem map_rebased_layout {first past start depth previous : Nat} :
    (items : List Item) → first + start + widths items < past → first + previous < past →
      (layout (first + start) depth (first + previous) items).map (rebased first past) =
        layout start depth previous items
  | [], _, _ => rfl
  | item :: rest, h, hp => by
    simp only [widths_cons] at h
    have hw := width_pos item
    have hn := nextStop_le (start + item.width) rest
    have ha : item.stopAfter previous start ≤ max previous start := by
      cases item <;> simp only [stopAfter] <;> omega
    rw [layout, layout, List.map_append, stopAfter_add, Nat.add_assoc, nextStop_add,
      map_rebased_tokensAt item (by omega) hp (by omega),
      map_rebased_layout rest (by omega) (by omega)]

end

theorem tokensAt_shift {item : Item} (h : item.isComma = false) {first past start depth p n : Nat}
    (hp : first + start + item.width ≤ past) :
    (item.tokensAt (first + start) depth p n).map (rebased first past) =
      item.tokensAt start depth p n := by
  have hw := width_pos item
  rw [tokensAt_eq h (first + start) depth p n (first + start) (first + start),
    tokensAt_eq h start depth p n start start]
  exact map_rebased_tokensAt item hp (by omega) (by omega)

/-- Between two stops no links lead outside, so the end may be the next stop itself. -/
theorem map_rebased_commaFree {part : List Item} (h : CommaFree part)
    {first past start depth previous : Nat} (hp : first + start + widths part ≤ past) :
    (layout (first + start) depth previous part).map (rebased first past) =
      layout start depth previous part := by
  induction part generalizing start with
  | nil => rfl
  | cons item part ih =>
    obtain ⟨hi, h⟩ := commaFree_cons.mp h
    rw [widths_cons] at hp
    rw [layout, layout, List.map_append, tokensAt_shift hi (by omega), stopAfter_eq hi,
      stopAfter_eq hi, Nat.add_assoc, ih h (by omega),
      tokensAt_eq hi start depth previous _ previous (nextStop (start + item.width) part)]

end Item

namespace Cursor

open Item

/-- A cursor at the start of items that have tokens of their own. -/
def ofItems (depth : Nat) (items : List Item) : Cursor := ofTokens (layout 0 depth 0 items)

theorem slice_layout {c : Cursor} {before after : List Token} {part : List Item}
    {depth previous : Nat} (h : CommaFree part)
    (hc : c.tokens = before ++ layout before.length depth previous part ++ after) :
    c.slice before.length (before.length + widths part) = ofItems depth part := by
  have hl : (before ++ layout before.length depth previous part).length =
      before.length + widths part := by rw [List.length_append, length_layout]
  have hm : (layout (before.length + 0) depth previous part).map
      (rebased before.length (before.length + widths part)) = layout 0 depth previous part :=
    map_rebased_commaFree h (by omega)
  rw [slice_eq, hc, List.take_left' hl, List.drop_left, ofItems, layout_eq h 0 depth 0 previous]
  exact congrArg ofTokens hm

theorem itemsFrom_close (c : Cursor) (close room : Nat) :
    c.itemsFrom close room close = .ok [] := by
  cases room with
  | zero => rfl
  | succ room => rw [itemsFrom, if_neg (Nat.lt_irrefl close)]

/-- One step along the chain of a group. -/
theorem itemsFrom_step {c : Cursor} {before after : List Token} {t : Token} {part : List Item}
    {depth previous close room : Nat} (h : CommaFree part)
    (hn : t.next = some (before.length + 1 + widths part))
    (hc : c.tokens = before ++ t :: layout (before.length + 1) depth previous part ++ after)
    (hs : before.length + 1 + widths part ≤ close) :
    c.itemsFrom close (room + 1) before.length =
      (c.itemsFrom close room (before.length + 1 + widths part)).map (ofItems depth part :: ·) := by
  have ht : c.tokens[before.length]? = some t := by
    rw [hc, List.append_assoc, List.cons_append, List.getElem?_append_right (Nat.le_refl _),
      Nat.sub_self, List.getElem?_cons_zero]
  have hp : c.slice (before.length + 1) (before.length + 1 + widths part) = ofItems depth part := by
    have hl : (before ++ [t]).length = before.length + 1 := by simp
    rw [← hl]
    apply slice_layout h
    rw [hl, hc, List.append_cons]
  rw [itemsFrom, if_pos (by omega), ht, Option.bind_some, hn]
  simp only
  rw [if_pos ⟨by omega, hs⟩, hp]

/-- Along the chain of a group, from a stop `t` on, come the stretches between the commas. -/
theorem itemsFrom_layout {c : Cursor} {body : List Item} {parts : List (List Item)}
    (hd : Divides body parts) {before after : List Token} {t : Token} {depth previous room : Nat}
    (hn : t.next = some (nextStop (before.length + 1) body))
    (hc : c.tokens = before ++ t :: layout (before.length + 1) depth previous body ++ after)
    (hr : widths body < room) :
    c.itemsFrom (before.length + 1 + widths body) room before.length =
      .ok (parts.map (ofItems depth)) := by
  induction hd generalizing before t previous room with
  | @last part h =>
    obtain ⟨room, rfl⟩ := Nat.exists_eq_succ_of_ne_zero (Nat.ne_zero_of_lt hr)
    rw [nextStop_commaFree h] at hn
    rw [itemsFrom_step h hn hc (Nat.le_refl _), itemsFrom_close]
    rfl
  | @comma part rest parts offset h hd ih =>
    obtain ⟨room, rfl⟩ := Nat.exists_eq_succ_of_ne_zero (Nat.ne_zero_of_lt hr)
    have hw : widths (part ++ comma offset :: rest) = widths part + 1 + widths rest := by
      rw [widths_append, widths_cons, width, Nat.add_assoc]
    rw [hw] at hr ⊢
    rw [nextStop_append h, nextStop] at hn
    rw [layout_append h _ _ _ previous, layout, tokensAt, List.singleton_append] at hc
    -- the chain goes on at the comma, with all that stands before it in the place of `before`
    obtain ⟨stop, hstop⟩ : ∃ stop : Token, stop = ⟨.comma, ",", offset, depth, none, some previous,
      some (nextStop (before.length + 1 + widths part + 1) rest), none⟩ := ⟨_, rfl⟩
    obtain ⟨earlier, he⟩ : ∃ earlier, earlier =
      before ++ t :: layout (before.length + 1) depth previous part := ⟨_, rfl⟩
    have hl : earlier.length = before.length + 1 + widths part := by
      rw [he, List.length_append, List.length_cons, length_layout]
      omega
    have hfirst : c.tokens = before ++ t :: layout (before.length + 1) depth previous part ++
        (stop :: layout (before.length + 1 + widths part + 1) depth
          (before.length + 1 + widths part) rest ++ after) := by
      rw [hc, hstop]
      simp only [List.append_assoc, List.cons_append, width, stopAfter]
    have hnext : stop.next = some (nextStop (earlier.length + 1) rest) := by rw [hstop, hl]
    have hrest : c.tokens = earlier ++ stop :: layout (earlier.length + 1) depth
        (before.length + 1 + widths part) rest ++ after := by
      rw [hfirst, hl, he, ← List.append_assoc]
    have hi := ih hnext hrest (by omega : widths rest < room)
    rw [itemsFrom_step h hn hfirst (by omega), ← hl]
    rw [show before.length + 1 + (widths part + 1 + widths rest) =
      earlier.length + 1 + widths rest by omega, hi]
    rfl

end Cursor

end ContractAbi
