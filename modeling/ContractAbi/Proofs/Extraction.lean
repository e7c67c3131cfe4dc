import ContractAbi.Proofs.Links
import ContractAbi.Proofs.Stretch

/-!
Groups cut out of texts, of their items, and so on. Whatever cursor is reached this way, its tokens
are those of a stretch of the text, and the items of a group in it are stretches between commas.
-/

namespace ContractAbi

namespace Token

/-- A token without its links. -/
def bare (t : Token) : Token := { t with partner := none, previous := none, next := none }

/-- A token as it is `k` characters later and so many groups deeper. -/
def moved (k depth : Nat) (t : Token) : Token :=
  { t with offset := k + t.offset, depth := depth + t.depth }

end Token

/-- Parts in a row, with one separator between every two. -/
inductive Interleaved {α : Type} : List (List α) → List α → List α → Prop where
  | last (part : List α) : Interleaved [part] [] part
  | cons {parts : List (List α)} {separators whole : List α} (part : List α) (separator : α)
      (h : Interleaved parts separators whole) :
      Interleaved (part :: parts) (separator :: separators) (part ++ separator :: whole)

/-- The characters of a text from one offset up to another. -/
def Text.between (text : String) (first past : Nat) : String :=
  String.ofList ((text.toList.take past).drop first)

namespace Cursor

/-- The cursor is at the start of the text between two offsets, as if that were a text of its own
but for where it stands and how deep it lies. -/
def LexedFrom (text : String) (depth first past : Nat) (c : Cursor) : Prop :=
  ∃ tokens, Token.scan (Text.between text first past) = .ok tokens ∧
    c = ofTokens (tokens.map (Token.moved first depth))

/-- Cursors to which reading a text leads, token by token and group by group. -/
inductive Reached (text : String) : Cursor → Prop where
  | start {tokens : List Token} (h : Token.scan text = .ok tokens) : Reached text (ofTokens tokens)
  | pop {c c' : Cursor} {t : Token} (h : Reached text c) (hr : Reader.pop.run c = .ok t c') :
      Reached text c'
  | past {c c' : Cursor} {cs : List Cursor} (h : Reached text c)
      (hr : Reader.popItems.run c = .ok cs c') : Reached text c'
  | item {c c' d : Cursor} {cs : List Cursor} (h : Reached text c)
      (hr : Reader.popItems.run c = .ok cs c') (hd : d ∈ cs) : Reached text d

/-- What reading the group of an opening parenthesis gives: its items are what stands between its
own commas, each as good as if it were lexed by itself. -/
structure Extraction (text : String) (c : Cursor) (t last : Token) (close : Nat)
    (commas : List Token) (cs : List Cursor) : Prop where
  pairs : Pairs (c.tokens.map Token.symbol) c.position close
  closing : c.tokens[close]? = some last
  own : ∃ stops : List Nat, stops.Pairwise (· < ·) ∧
    (∀ k, k ∈ stops ↔ (c.tokens.map Token.symbol)[k]? = some .comma ∧
      Innermost (c.tokens.map Token.symbol) c.position k close) ∧
    stops.map (fun k => c.tokens[k]?) = commas.map some
  empty : close = c.position + 1 → cs = []
  interleaved : close ≠ c.position + 1 →
    Interleaved (cs.map fun d => d.tokens.map Token.bare) (commas.map Token.bare)
      (((c.tokens.take close).drop (c.position + 1)).map Token.bare)
  lexed : close ≠ c.position + 1 →
    List.Forall₂ (fun (stop : Token × Token) d =>
        d.LexedFrom text (t.depth + 1) (stop.1.offset + 1) stop.2.offset)
      ((t :: commas).zip (commas ++ [last])) cs
  linked : ∀ d ∈ cs, Token.Linked (t.depth + 1) d.tokens

end Cursor

/-- The body of a group is what a stretch of these pieces is made into. -/
def Site.Within (g : Site) (start : Nat) (ps : List Piece) : Prop :=
  ∃ before qs after, ps = before ++ qs ++ after ∧ g.openAt + 1 = start + Piece.extent before ∧
    g.closeAt = g.openAt + 1 + Piece.extent qs ∧ Stretch (g.openAt + 1) qs g.body

theorem Site.Within.append {g : Site} {start : Nat} {ps : List Piece} (h : g.Within start ps)
    (more : List Piece) : g.Within start (ps ++ more) := by
  obtain ⟨before, qs, after, rfl, hat⟩ := h
  exact ⟨before, qs, after ++ more, by simp, hat⟩

namespace Item

/-- Neither where items stand nor how deep they lie has to do with their links. -/
theorem layout_moved (k d start depth previous : Nat) (items : List Item) :
    layout start (d + depth) previous (shiftAll k items) =
      (layout start depth previous items).map (Token.moved k d) := by
  rw [shiftAll_eq_relocateAll]
  exact layout_relocateAll (k + ·) d start depth previous items

mutual

/-- But for their links, the tokens of items do not depend on the tokens around them. -/
theorem map_bare_tokensAt (s s' depth p p' n n' : Nat) :
    (item : Item) → (item.tokensAt s depth p n).map Token.bare =
      (item.tokensAt s' depth p' n').map Token.bare
  | single _ => rfl
  | comma _ => rfl
  | group _ body _ => by
    simp only [tokensAt, List.map_append, List.map_cons, List.map_nil, Token.bare,
      map_bare_layout (s + 1) (s' + 1) (depth + 1) s s' body]

theorem map_bare_layout (s s' depth p p' : Nat) :
    (items : List Item) → (layout s depth p items).map Token.bare =
      (layout s' depth p' items).map Token.bare
  | [] => rfl
  | item :: rest => by
    rw [layout, layout, List.map_append, List.map_append,
      map_bare_tokensAt _ (s') depth _ p' _ (nextStop (s' + item.width) rest) item,
      map_bare_layout _ (s' + item.width) depth _ (item.stopAfter p' s') rest]

end

/-- The offsets of the commas that are in no group of the items. -/
def commaOffsets (items : List Item) : List Nat :=
  items.filterMap fun
    | comma offset => some offset
    | _ => none

theorem commaOffsets_append (xs ys : List Item) :
    commaOffsets (xs ++ ys) = commaOffsets xs ++ commaOffsets ys := List.filterMap_append

theorem commaOffsets_commaFree {items : List Item} (h : CommaFree items) :
    commaOffsets items = [] := by
  rw [commaOffsets, List.filterMap_eq_nil_iff]
  intro item hi
  have hc := h item hi
  cases item with
  | comma => cases hc
  | single | group => rfl

/-- A comma, but for its links. -/
def commaAt (depth offset : Nat) : Token := ⟨.comma, ",", offset, depth, none, none, none, none⟩

/-- At the stops of a chain stand the commas. -/
theorem exists_commas {tokens before after : List Token} {depth previous : Nat} (items : List Item)
    (ht : tokens = before ++ layout before.length depth previous items ++ after) :
    ∃ commas : List Token, (stops before.length items).map (fun k => tokens[k]?) = commas.map some ∧
      commas.map Token.bare = (commaOffsets items).map (commaAt depth) := by
  induction items generalizing before previous with
  | nil => exact ⟨[], rfl, rfl⟩
  | cons item rest ih =>
    obtain ⟨earlier, hl, hrest⟩ := exists_layout_rest ht
    obtain ⟨commas, hc, ho⟩ := ih hrest
    rw [hl] at hc
    cases item with
    | single | group => exact ⟨commas, hc, ho⟩
    | comma offset =>
      refine ⟨⟨.comma, ",", offset, depth, none, some previous,
        some (nextStop (before.length + 1) rest), none⟩ :: commas, ?_, ?_⟩
      · rw [stops, List.map_cons, getElem?_comma ht]
        exact congrArg _ hc
      · exact congrArg (commaAt depth offset :: ·) ho

theorem map_offset_of_map_bare {commas : List Token} {offsets : List Nat} {depth : Nat}
    (h : commas.map Token.bare = offsets.map (commaAt depth)) :
    commas.map Token.offset = offsets := by
  have ho := congrArg (List.map Token.offset) h
  simpa [Function.comp_def, Token.bare, commaAt] using ho

/-- The parts of items and their commas make up all the tokens of them. -/
theorem Divides.interleaved {body : List Item} {parts : List (List Item)} (hd : Divides body parts)
    (start depth previous : Nat) :
    Interleaved (parts.map fun part => (layout 0 depth 0 part).map Token.bare)
      ((commaOffsets body).map (commaAt depth))
      ((layout start depth previous body).map Token.bare) := by
  induction hd generalizing start previous with
  | @last part h =>
    rw [commaOffsets_commaFree h, map_bare_layout start 0 depth previous 0]
    exact .last _
  | @comma part rest parts offset h hd ih =>
    rw [layout_append h _ _ _ previous, layout, List.map_append, List.map_append,
      map_bare_layout start 0 depth previous 0, commaOffsets_append, commaOffsets_commaFree h]
    exact .cons _ _ (ih _ _)

namespace HasGroup

variable {start depth : Nat} {items : List Item} {g : Site}

theorem append_inv {xs ys : List Item} (h : HasGroup start depth (xs ++ ys) g) :
    HasGroup start depth xs g ∨ HasGroup (start + widths xs) depth ys g := by
  induction xs generalizing start with
  | nil => exact .inr h
  | cons x xs ih =>
    rw [widths_cons, ← Nat.add_assoc]
    cases h with
    | here => exact .inl .here
    | inside h => exact .inl (.inside h)
    | later h => exact (ih h).imp_left .later

theorem not_map_single {ls : List Lexeme} : ¬ HasGroup start depth (ls.map .single) g := by
  intro h
  generalize he : ls.map Item.single = items at h
  induction h generalizing ls with
  | here | inside =>
    obtain ⟨l, -, -, hl, -⟩ := List.map_eq_cons_iff.mp he
    cases hl
  | later _ ih =>
    obtain ⟨-, ls, -, -, hls⟩ := List.map_eq_cons_iff.mp he
    exact ih hls

theorem not_comma {offset : Nat} : ¬ HasGroup start depth [.comma offset] g := by
  intro h
  cases h with
  | later h => cases h

/-- At the stops of a group stand its commas. -/
theorem exists_commas (h : HasGroup 0 depth items g) :
    ∃ commas : List Token,
      (stops (g.position + 1) g.body).map (fun k => (layout 0 depth 0 items)[k]?) =
        commas.map some ∧
      commas.map Token.bare = (commaOffsets g.body).map (commaAt (g.depth + 1)) := by
  obtain ⟨before, after, hl, ht⟩ := h.tokens_eq_inside
  rw [← hl]
  exact Item.exists_commas g.body ht

theorem inside_eq (h : HasGroup 0 depth items g) :
    ((layout 0 depth 0 items).take g.close).drop (g.position + 1) = g.inside := by
  obtain ⟨before, after, hl, ht⟩ := h.tokens_eq_inside
  have hlen :
      (before ++ layout before.length (g.depth + 1) g.position g.body).length = g.close := by
    rw [List.length_append, length_layout, hl, Site.close]
  rw [ht, List.take_left' hlen, List.drop_left' hl, hl, Site.inside]

/-- A group of a stretch is one in the text as well. -/
theorem within {first : Nat} {ps : List Piece} (hs : Stretch first ps items)
    (h : HasGroup start depth items g) : g.Within first ps := by
  induction hs generalizing start depth with
  | nil => cases h
  | blank _ _ ih => exact (ih h).append _
  | run _ w ih =>
    obtain h | h := h.append_inv
    · exact (ih h).append _
    · exact absurd h not_map_single
  | atSign _ ih =>
    obtain h | h := h.append_inv
    · exact (ih h).append _
    · exact absurd h (@not_map_single _ _ _ [_])
  | comma _ ih =>
    obtain h | h := h.append_inv
    · exact (ih h).append _
    · exact absurd h not_comma
  | bracket _ _ _ ih _ =>
    rw [List.append_assoc]
    obtain h | h := h.append_inv
    · exact (ih h).append _
    · exact absurd h (@not_map_single _ _ _ [_])
  | @group first ps us _ _ _ hi ih ihi =>
    obtain h | h := h.append_inv
    · rw [List.append_assoc]
      exact (ih h).append _
    · cases h with
      | later h => cases h
      | here =>
        exact ⟨ps ++ [.mark '('], us, [.mark ')'], by simp, by simp [Nat.add_assoc], rfl, hi⟩
      | inside h =>
        obtain ⟨before, qs, after, rfl, ho, hat⟩ := ihi h
        refine ⟨ps ++ .mark '(' :: before, qs, after ++ [.mark ')'], by simp, ?_, hat⟩
        rw [ho]
        simp [Nat.add_assoc]

end HasGroup

/-- The items are those of a text from one offset up to another. -/
def Spans (text : String) (first past : Nat) (items : List Item) : Prop :=
  ∃ before ps after, Piece.ofChars text.toList = before ++ ps ++ after ∧
    first = Piece.extent before ∧ past = first + Piece.extent ps ∧ Stretch first ps items

namespace Spans

variable {text : String} {first past : Nat} {items : List Item}

theorem of_ofChars (h : ofChars text.toList = .ok items) :
    Spans text 0 (Piece.extent (Piece.ofChars text.toList)) items :=
  ⟨[], _, [], by simp, rfl, (zero_add _).symm, (ofChars_eq_ok.mp h).1⟩

theorem body {start depth : Nat} {g : Site} (h : Spans text first past items)
    (hg : HasGroup start depth items g) : Spans text (g.openAt + 1) g.closeAt g.body := by
  obtain ⟨before, ps, after, he, rfl, -, hs⟩ := h
  obtain ⟨before', qs, after', rfl, ho, hc, hb⟩ := hg.within hs
  exact ⟨before ++ before', qs, after' ++ after, by simp [he], by simpa using ho, hc, hb⟩

theorem split_comma {part rest : List Item} {offset : Nat}
    (h : Spans text first past (part ++ .comma offset :: rest)) :
    Spans text first offset part ∧ Spans text (offset + 1) past rest := by
  obtain ⟨before, ps, after, he, rfl, rfl, hs⟩ := h
  obtain ⟨qs, rs, rfl, rfl, hq, hr⟩ := hs.split_comma
  refine ⟨⟨before, qs, .mark ',' :: rs ++ after, by simp [he], rfl, rfl, hq⟩,
    ⟨before ++ qs ++ [.mark ','], rs, after, by simp [he], ?_, ?_, hr⟩⟩
  · simp [Nat.add_assoc]
  · simp [Nat.add_assoc]

/-- Where items are those of a stretch of a text, the stretch by itself has the same ones. -/
theorem lexedFrom (h : Spans text first past items) (hc : CommaFree items) (depth : Nat) :
    (Cursor.ofItems depth items).LexedFrom text depth first past := by
  obtain ⟨before, ps, after, he, rfl, rfl, hs⟩ := h
  have htext : Text.between text (Piece.extent before) (Piece.extent before + Piece.extent ps) =
      String.ofList (ps.flatMap Piece.chars) := by
    rw [Text.between, ← Piece.flatMap_chars_ofChars text.toList, he, List.flatMap_append,
      List.take_left' (Piece.extent_append before ps), List.flatMap_append, Piece.extent,
      List.drop_left]
  have hdivided : Piece.Divided (before ++ ps ++ after) := he ▸ Piece.divided_ofChars text.toList
  obtain ⟨items', hs', rfl⟩ := @Stretch.unshift ps items (Piece.extent before) 0 hs
  have hchars : ofChars (ps.flatMap Piece.chars) = .ok items' := by
    rw [ofChars_eq_ok, hdivided.left.right.ofChars_flatMap]
    exact ⟨hs', commaFree_shiftAll.mp hc⟩
  refine ⟨layout 0 0 0 items', ?_, ?_⟩
  · rw [htext, Token.scan, String.toList_ofList, hchars]
    rfl
  · rw [Cursor.ofItems, ← layout_moved]
    rfl

end Spans

theorem Divides.spans_of_mem {text : String} {first past : Nat} {body part : List Item}
    {parts : List (List Item)} (hd : Divides body parts) (h : Spans text first past body)
    (hm : part ∈ parts) : ∃ first past, Spans text first past part := by
  induction hd generalizing first with
  | last =>
    obtain rfl := List.mem_singleton.mp hm
    exact ⟨first, past, h⟩
  | comma _ _ ih =>
    obtain ⟨hpart, hrest⟩ := h.split_comma
    obtain rfl | hm := List.mem_cons.mp hm
    · exact ⟨first, _, hpart⟩
    · exact ih hrest hm

theorem Parts.divides {body : List Item} {parts : List (List Item)} (h : Parts body parts)
    (hne : body ≠ []) : Divides body parts := by rwa [Parts, if_neg hne] at h

theorem Parts.eq_nil {body : List Item} {parts : List (List Item)} (h : Parts body parts)
    (hb : body = []) : parts = [] := by rwa [Parts, if_pos hb] at h

theorem Parts.spans_of_mem {text : String} {first past : Nat} {body part : List Item}
    {parts : List (List Item)} (hd : Parts body parts) (h : Spans text first past body)
    (hm : part ∈ parts) : ∃ first past, Spans text first past part := by
  by_cases hb : body = []
  · rw [hd.eq_nil hb] at hm
    cases hm
  · exact (hd.divides hb).spans_of_mem h hm

/-- Each part is what the text between two commas is lexed into. -/
theorem Divides.lexedFrom {body : List Item} {parts : List (List Item)} (hd : Divides body parts)
    {text : String} {openAt closeAt : Nat} (h : Spans text (openAt + 1) closeAt body)
    (depth : Nat) :
    List.Forall₂ (fun (stop : Nat × Nat) part =>
        (Cursor.ofItems depth part).LexedFrom text depth (stop.1 + 1) stop.2)
      ((openAt :: commaOffsets body).zip (commaOffsets body ++ [closeAt])) parts := by
  induction hd generalizing openAt with
  | last hc =>
    rw [commaOffsets_commaFree hc]
    exact .cons (h.lexedFrom hc depth) .nil
  | comma hc hd ih =>
    obtain ⟨hpart, hrest⟩ := h.split_comma
    rw [commaOffsets_append, commaOffsets_commaFree hc]
    exact .cons (hpart.lexedFrom hc depth) (ih hrest)

end Item

theorem Reads.pop_iff {c c' : Cursor} {t : Token} :
    Reads Reader.pop c t c' ↔ c.peek? = some t ∧ c' = c.advance 1 := by
  rw [Reader.pop, peek_bind_iff]
  constructor
  · rintro ⟨u, hu, hr⟩
    obtain ⟨rfl, rfl⟩ := skip_pure_iff.mp hr
    exact ⟨hu, rfl⟩
  · rintro ⟨ht, rfl⟩
    exact ⟨t, ht, skip_pure_iff.mpr ⟨rfl, rfl⟩⟩

namespace Cursor

open Item

/-- The tokens are laid out items of a stretch of the text. -/
structure Covers (text : String) (depth : Nat) (items : List Item) (c : Cursor) : Prop where
  tokens : c.tokens = layout 0 depth 0 items
  spans : ∃ first past, Spans text first past items
  commaFree : CommaFree items
  proper : Proper items

namespace Covers

variable {text : String} {depth : Nat} {items : List Item} {c c' : Cursor} {t : Token}
  {cs : List Cursor}

/-- Before an opening parenthesis the cursor stands before a group. -/
theorem exists_hasGroup (h : c.Covers text depth items) (ht : c.peek? = some t)
    (hk : t.kind = .openParen) :
    ∃ g, HasGroup 0 depth items g ∧ g.position = c.position ∧ t = g.opening := by
  rw [peek?, h.tokens] at ht
  have hs : (symbolsOf items)[c.position]? = some .openParen := by
    rw [symbolsOf_getElem? ht, Token.symbol_eq_openParen.mpr hk]
  obtain ⟨g, hg, hpos⟩ := hasGroup_of_symbolsOf 0 depth items h.proper hs
  rw [zero_add] at hpos
  have hopen := hg.getElem?_position
  rw [hpos, ht] at hopen
  exact ⟨g, hg, hpos, Option.some.inj hopen⟩

theorem popItems_iff {g : Site} (h : c.Covers text depth items) (hg : HasGroup 0 depth items g)
    (hp : g.position = c.position) :
    Reads Reader.popItems c cs c' ↔
      (∃ parts, Parts g.body parts ∧ cs = parts.map (ofItems (g.depth + 1))) ∧
        c' = { c with position := g.close + 1 } := by
  obtain ⟨before, after, hl, hlayout⟩ := hg.tokens_eq
  have hc : c.tokens = before ++ g.opening ::
      layout (before.length + 1) (g.depth + 1) before.length g.body ++ (g.closing :: after) := by
    rw [h.tokens, hlayout, hl, Site.tokens, Site.inside]
    simp
  have hmove : c.advance (widths g.body + 2) = { c with position := g.close + 1 } := by
    rw [advance, Site.close, hp]
    congr 1
    omega
  rw [Reads.popItems_opening_iff (List.cons_ne_nil _ _) (hl.trans hp) rfl (by rw [hl]; rfl)
    (by rw [hl]; rfl) hc, hmove]

end Covers

/-- Whatever is reached are the items of a stretch of the text. -/
theorem Reached.covers {text : String} {c : Cursor} (h : Reached text c) :
    ∃ depth items, c.Covers text depth items := by
  induction h with
  | start h =>
    obtain ⟨items, hi, rfl, hc, hp⟩ := Token.scan_eq_layout h
    exact ⟨0, items, rfl, ⟨_, _, .of_ofChars hi⟩, hc, hp⟩
  | pop _ hr ih =>
    obtain ⟨depth, items, h⟩ := ih
    obtain ⟨-, rfl⟩ := Reads.pop_iff.mp hr
    exact ⟨depth, items, h.tokens, h.spans, h.commaFree, h.proper⟩
  | past _ hr ih =>
    obtain ⟨depth, items, h⟩ := ih
    obtain ⟨-, -, -, -, -, -, rfl⟩ := Reads.popItems_iff.mp hr
    exact ⟨depth, items, h.tokens, h.spans, h.commaFree, h.proper⟩
  | item _ hr hd ih =>
    obtain ⟨depth, items, h⟩ := ih
    obtain ⟨t, -, ht, hk, -⟩ := Reads.popItems_iff.mp hr
    obtain ⟨g, hg, hpos, -⟩ := h.exists_hasGroup ht hk
    obtain ⟨⟨parts, hparts, rfl⟩, -⟩ := (h.popItems_iff hg hpos).mp hr
    obtain ⟨part, hm, rfl⟩ := List.mem_map.mp hd
    obtain ⟨first, past, hs⟩ := h.spans
    obtain ⟨hc, hp, -⟩ := hparts.of_mem (hg.proper h.proper) hm
    exact ⟨g.depth + 1, part, rfl, hparts.spans_of_mem (hs.body hg) hm, hc, hp⟩

/-- From wherever reading a text has led to, the group of an opening parenthesis can be read, and
its items are exactly what stands between its commas. -/
theorem popItems_of_reached {text : String} {c : Cursor} {t : Token} (h : Reached text c)
    (ht : c.peek? = some t) (hk : t.kind = .openParen) :
    ∃ last close commas cs, Reader.popItems.run c = .ok cs { c with position := close + 1 } ∧
      Extraction text c t last close commas cs := by
  obtain ⟨depth, items, hcovers⟩ := h.covers
  obtain ⟨g, hg, hpos, rfl⟩ := hcovers.exists_hasGroup ht hk
  obtain ⟨first, past, hspans⟩ := hcovers.spans
  have hbody : Spans text (g.openAt + 1) g.closeAt g.body := hspans.body hg
  have hproper : Proper g.body := hg.proper hcovers.proper
  have hsymbols : c.tokens.map Token.symbol = symbolsOf items := by
    rw [hcovers.tokens, map_symbol_layout]
  obtain ⟨parts, hparts⟩ := exists_parts g.body
  obtain ⟨commas, hcommas, hbare⟩ := hg.exists_commas
  have hread := (hcovers.popItems_iff hg hpos).mpr ⟨⟨parts, hparts, rfl⟩, rfl⟩
  refine ⟨g.closing, g.close, commas, parts.map (ofItems (g.depth + 1)), hread, ?_⟩
  have hdivides (hne : g.close ≠ c.position + 1) : Divides g.body parts := by
    apply hparts.divides
    rintro hnil
    rw [Site.close, hnil, hpos] at hne
    exact hne rfl
  constructor
  case pairs =>
    rw [hsymbols, ← hpos]
    exact hg.pairs hcovers.proper
  case closing =>
    rw [hcovers.tokens]
    exact hg.getElem?_close
  case own =>
    rw [hsymbols, hcovers.tokens, ← hpos]
    exact ⟨stops (g.position + 1) g.body, pairwise_stops _ _,
      fun k => hg.mem_stops_iff hcovers.proper, hcommas⟩
  case empty =>
    intro he
    rw [Site.close, hpos] at he
    rw [hparts.eq_nil (eq_nil_of_widths (by omega))]
    rfl
  case interleaved =>
    intro hne
    rw [List.map_map, hcovers.tokens, ← hpos, hg.inside_eq, hbare]
    exact (hdivides hne).interleaved _ _ _
  case lexed =>
    intro hne
    have hlexed := (hdivides hne).lexedFrom hbody (g.depth + 1)
    rw [← map_offset_of_map_bare hbare] at hlexed
    have hzip : (g.openAt :: commas.map Token.offset).zip (commas.map Token.offset ++ [g.closeAt]) =
        ((g.opening :: commas).zip (commas ++ [g.closing])).map
          (Prod.map Token.offset Token.offset) := by
      rw [← List.zip_map, List.map_append]
      rfl
    rw [hzip, List.forall₂_map_left_iff] at hlexed
    exact List.forall₂_map_right_iff.mpr hlexed
  case linked =>
    intro d hd
    obtain ⟨part, hm, rfl⟩ := List.mem_map.mp hd
    obtain ⟨hc, hp, -⟩ := hparts.of_mem hproper hm
    exact linked_layout hc hp

theorem popItems_of_reached_nested :
    ∃ c t last close commas cs, Reached "f(a, (b, c[]), ())" c ∧ c.tokens.length = 6 ∧
      c.peek? = some t ∧ t.kind = .openParen ∧
      Reader.popItems.run c = .ok cs { c with position := close + 1 } ∧
      Extraction "f(a, (b, c[]), ())" c t last close commas cs := by
  let start : Cursor := ofTokens ((Token.scan "f(a, (b, c[]), ())").toOption.getD [])
  let outer : List Cursor := ((start.advance 1).items 13).toOption.getD []
  have hstart : Reached "f(a, (b, c[]), ())" start :=
    .start (eq_ok_of_toOption (by decide +kernel))
  obtain ⟨f, hf⟩ : ∃ t, start.peek? = some t := Option.isSome_iff_exists.mp (by decide +kernel)
  have hpop : Reached "f(a, (b, c[]), ())" (start.advance 1) :=
    hstart.pop (Reads.pop_iff.mpr ⟨hf, rfl⟩)
  obtain ⟨u, hu, hclose⟩ := Option.bind_eq_some_iff.mp
    (by decide +kernel : (start.advance 1).peek?.bind
      (fun t => if t.kind = .openParen then (start.advance 1).close? t else none) = some 13)
  have hk : u.kind = .openParen := by
    by_contra hne
    rw [if_neg hne] at hclose
    cases hclose
  rw [if_pos hk] at hclose
  have hread : Reads Reader.popItems (start.advance 1) outer { start with position := 14 } :=
    Reads.popItems_iff.mpr
      ⟨u, 13, hu, hk, hclose, eq_ok_of_toOption (by decide +kernel), rfl⟩
  obtain ⟨c, hc, ht⟩ := Option.bind_eq_some_iff.mp
    (by decide +kernel : outer[1]?.bind (fun c => c.peek?.map fun t => (c.tokens.length, t.kind)) =
      some (6, .openParen))
  obtain ⟨t, ht, he⟩ := Option.map_eq_some_iff.mp ht
  obtain ⟨hlength, hkind⟩ := Prod.mk.inj he
  have hreached : Reached "f(a, (b, c[]), ())" c := hpop.item hread (List.mem_of_getElem? hc)
  obtain ⟨last, close, commas, cs, h⟩ := popItems_of_reached hreached ht hkind
  exact ⟨c, t, last, close, commas, cs, hreached, hlength, ht, hkind, h⟩

end Cursor

end ContractAbi
