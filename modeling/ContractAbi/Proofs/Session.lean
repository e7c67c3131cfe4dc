import ContractAbi.Cursor.Session
import ContractAbi.Proofs.Outcome
import ContractAbi.Proofs.Parameter

/-!
Cursors over any tokens at all, with whatever links these have. No operation looks past the tokens,
what is cut out is shorter and has its links inside, and so the readers come to an end without any
bound on how deep groups may lie.
-/

namespace ContractAbi

theorem Reads.popGroup_iff {c c' inner : Cursor} :
    Reads Reader.popGroup c inner c' ↔
      ∃ t close, c.peek? = some t ∧ t.kind = .openParen ∧ c.close? t = some close ∧
        inner = c.slice (c.position + 1) close ∧ c' = { c with position := close + 1 } := by
  rw [Reader.popGroup, bind_iff]
  simp only [groupEnd_iff, get_bind_iff, set_bind_iff, pure_iff]
  constructor
  · rintro ⟨close, d, ⟨t, ht, hk, hcl, rfl⟩, rfl, rfl⟩
    exact ⟨t, close, ht, hk, hcl, rfl, rfl⟩
  · rintro ⟨t, close, ht, hk, hcl, rfl, rfl⟩
    exact ⟨close, c, ⟨t, ht, hk, hcl, rfl⟩, rfl, rfl⟩

namespace Cursor

variable {c c' d : Cursor} {cs : List Cursor} {close first past : Nat} {e : Error}

def InRange (c : Cursor) : Prop := c.position ≤ c.tokens.length

/-- All links lead to tokens of the cursor. -/
def LinksInside (c : Cursor) : Prop :=
  ∀ t ∈ c.tokens, ∀ k, t.partner = some k ∨ t.previous = some k ∨ t.next = some k →
    k < c.tokens.length

/-- The cursor is over tokens from the inside of a list of `n`. -/
structure CutFrom (n : Nat) (d : Cursor) : Prop where
  start : d.position = 0
  shorter : d.tokens.length + 2 ≤ n
  links : d.LinksInside

theorem rebase_lt {link : Option Nat} {k : Nat} (h : rebase first past link = some k) :
    k < past - first := by
  obtain ⟨i, hi, rfl⟩ := Option.map_eq_some_iff.mp h
  obtain ⟨-, hi⟩ := Option.filter_eq_some_iff.mp hi
  simp only [Bool.and_eq_true, decide_eq_true_eq] at hi
  omega

theorem length_slice (h : past ≤ c.tokens.length) :
    (c.slice first past).tokens.length = past - first := by
  simp [slice, ofTokens, h]

theorem cutFrom_slice (hf : first < past) (hp : past < c.tokens.length) :
    (c.slice (first + 1) past).CutFrom c.tokens.length := by
  refine ⟨rfl, ?_, ?_⟩
  · rw [length_slice hp.le]
    omega
  · intro t ht k hk
    rw [length_slice hp.le]
    obtain ⟨u, -, rfl⟩ := List.mem_map.mp ht
    obtain hk | hk | hk := hk
    · exact rebase_lt hk
    · exact rebase_lt hk
    · exact rebase_lt hk

/-- What the links lead along is all inside of the group. -/
theorem cutFrom_of_itemsFrom {room : Nat} (hc : close < c.tokens.length)
    (h : c.itemsFrom close room first = .ok cs) : ∀ d ∈ cs, d.CutFrom c.tokens.length := by
  induction room generalizing first cs with
  | zero =>
    obtain rfl := Except.ok.inj h
    exact nofun
  | succ room ih =>
    rw [itemsFrom] at h
    split at h
    next =>
      split at h
      next stop _ =>
        split at h
        next hs =>
          obtain ⟨rest, hrest, rfl⟩ := map_eq_ok_iff.mp h
          exact List.forall_mem_cons.mpr ⟨cutFrom_slice hs.1 (by omega), ih hrest⟩
        next => cases h
      next => cases h
    next =>
      obtain rfl := Except.ok.inj h
      exact nofun

theorem cutFrom_of_items (hc : close < c.tokens.length) (h : c.items close = .ok cs) :
    ∀ d ∈ cs, d.CutFrom c.tokens.length := by
  unfold items at h
  split at h
  next =>
    obtain rfl := Except.ok.inj h
    exact nofun
  next => exact cutFrom_of_itemsFrom hc h

theorem close?_bounds {t : Token} (h : c.close? t = some close) :
    c.position < close ∧ close < c.tokens.length := by
  simpa using (Option.filter_eq_some_iff.mp h).2

section Guarded

theorem minus?_eq {m n : Nat} (h : n ≤ m) : minus? m n = some (m - n) := if_pos h

theorem between?_eq {α : Type} {xs : List α} (hf : first ≤ past) (hp : past ≤ xs.length) :
    between? xs first past = some ((xs.take past).drop first) := if_pos ⟨hf, hp⟩

theorem rebase?_eq (first past : Nat) (link : Option Nat) :
    rebase? first past link = some (rebase first past link) := by
  unfold rebase? rebase
  split
  next h => rw [h]; rfl
  next i h =>
    obtain ⟨-, hi⟩ := Option.filter_eq_some_iff.mp h
    simp only [Bool.and_eq_true, decide_eq_true_eq] at hi
    rw [h, minus?_eq hi.1]
    rfl

theorem slice?_eq (hf : first ≤ past) (hp : past ≤ c.tokens.length) :
    c.slice? first past = some (c.slice first past) := by
  simp only [slice?, between?_eq hf hp, rebase?_eq, Option.bind_eq_bind, Option.bind_some]
  have hm (ts : List Token) :
      (ts.mapM fun t => some (rebased first past t)) = some (ts.map (rebased first past)) :=
    List.mapM_pure
  exact congrArg (Option.bind · fun ts => some (ofTokens ts)) (hm _)

/-- The chain of links is gone along to its end: as there are tokens, there is room enough. -/
theorem follow?_eq {room : Nat} (hr : close - first ≤ room) (hc : close < c.tokens.length) :
    c.follow? close first = some (c.itemsFrom close room first) := by
  induction room generalizing first with
  | zero =>
    rw [follow?, if_neg (by omega)]
    rfl
  | succ room ih =>
    rw [follow?, itemsFrom]
    split
    next hf =>
      obtain ⟨t, ht⟩ : ∃ t, c.tokens[first]? = some t :=
        ⟨_, List.getElem?_eq_getElem (by omega)⟩
      rw [ht, Option.bind_eq_bind, Option.bind_some, Option.bind_some]
      cases hn : t.next with
      | none => rfl
      | some stop =>
        dsimp only
        split
        next hs =>
          rw [slice?_eq (by omega) (by omega), ih (by omega)]
          rfl
        next => rfl
    next => rfl

theorem leave?_eq {cut : Nat → Option (Except Error (List Cursor))} {r : Reader Answer}
    (taken : Nat → Except Error (List Cursor))
    (hcut : ∀ close, c.position < close → close < c.tokens.length → cut close = some (taken close))
    (hok : ∀ close, Reads Reader.groupEnd c close c → r.run c =
      match taken close with
      | .ok cs => .ok (.cursors cs) { c with position := close + 1 }
      | .error e => .error e c)
    (herror : ∀ e c', Reader.groupEnd.run c = .error e c' → r.run c = .error e c') :
    c.leave? cut = some (r.run c) := by
  unfold leave?
  split
  next e c' h => rw [herror e c' h]
  next close c' h =>
    obtain ⟨t, -, -, hclose, rfl⟩ := Reads.groupEnd_iff.mp h
    obtain ⟨hfirst, hpast⟩ := close?_bounds hclose
    rw [hcut close hfirst hpast, hok close h]
    rfl

theorem guarded_popGroup : Operation.popGroup.guarded c = some (Operation.popGroup.run.run c) := by
  apply leave?_eq fun close => .ok [c.slice (c.position + 1) close]
  · intro close hf hp
    rw [slice?_eq hf hp.le]
    rfl
  · intro close h
    rw [Operation.run, map_eq_pure_bind, Reader.popGroup, bind_assoc, run_bind_of_ok h]
    rfl
  · intro e c' h
    exact run_map_of_error (run_bind_of_error h _) _

theorem guarded_popItems : Operation.popItems.guarded c = some (Operation.popItems.run.run c) := by
  apply leave?_eq c.items
  · intro close hf hp
    unfold items
    by_cases h : close = c.position + 1
    · rw [if_neg (by omega), if_pos h]
    · rw [if_pos (by omega), if_neg h, follow?_eq le_rfl hp]
  · intro close h
    rw [Operation.run, map_eq_pure_bind, Reader.popItems, bind_assoc, run_bind_of_ok h]
    change ((Reader.liftExcept (c.items close) >>= _) >>= _ : Reader Answer).run c = _
    cases c.items close with
    | ok cs => rfl
    | error e => rfl
  · intro e c' h
    exact run_map_of_error (run_bind_of_error h _) _

theorem Operation.guarded_eq (hc : c.InRange) (op : Operation) :
    op.guarded c = some (op.run.run c) := by
  cases op with
  | popGroup => exact guarded_popGroup
  | popItems => exact guarded_popItems
  | length =>
    rw [Operation.guarded, length?, minus?_eq hc, Option.map_some, ← List.length_drop]
    rfl
  | display =>
    rw [Operation.guarded, display?, between?_eq hc le_rfl, Option.map_some, List.take_length]
    rfl
  | _ => rfl

end Guarded

/-- The reader leaves the cursor where it is, whatever comes of it. -/
def Still {α : Type} (r : Reader α) : Prop :=
  ∀ c, (∃ a, r.run c = .ok a c) ∨ ∃ e, r.run c = .error e c

/-- If the reader fails, it leaves the cursor where it was. -/
def Steady {α : Type} (r : Reader α) : Prop := ∀ c e c', r.run c = .error e c' → c' = c

section Steady

variable {α β : Type} {r : Reader α} {f : α → Reader β}

theorem Still.steady (h : Still r) : Steady r := by
  intro c e c' he
  obtain ⟨a, ha⟩ | ⟨e', he'⟩ := h c
  · rw [ha] at he
    cases he
  · rw [he'] at he
    cases he
    rfl

theorem Still.bind_steady (h : Still r) (hf : ∀ a, Steady (f a)) : Steady (r >>= f) := by
  intro c e c' he
  obtain ⟨a, ha⟩ | ⟨e', he'⟩ := h c
  · rw [run_bind_of_ok ha] at he
    exact hf a c e c' he
  · rw [run_bind_of_error he'] at he
    cases he
    rfl

theorem Still.bind (h : Still r) (hf : ∀ a, Still (f a)) : Still (r >>= f) := by
  intro c
  obtain ⟨a, ha⟩ | ⟨e', he'⟩ := h c
  · rw [run_bind_of_ok ha]
    exact hf a c
  · rw [run_bind_of_error he']
    exact .inr ⟨e', rfl⟩

theorem Steady.map (h : Steady r) (f : α → β) : Steady (f <$> r) := by
  intro c e c' he
  cases hr : r.run c with
  | ok a d =>
    rw [run_map_of_ok hr] at he
    cases he
  | error e' d =>
    rw [run_map_of_error hr] at he
    obtain ⟨rfl, rfl⟩ := EStateM.Result.error.inj he
    exact h c _ _ hr

theorem still_pure (a : α) : Still (pure a : Reader α) := fun _ => .inl ⟨a, rfl⟩

theorem still_get : Still (get : Reader Cursor) := fun c => .inl ⟨c, rfl⟩

theorem still_fail (fault : GrammarFault) (offset : Option Nat) :
    Still (Reader.fail fault offset : Reader α) := fun _ => .inr ⟨_, rfl⟩

theorem still_liftExcept : (x : Except Error α) → Still (Reader.liftExcept x)
  | .ok _ => fun _ => .inl ⟨_, rfl⟩
  | .error _ => fun _ => .inr ⟨_, rfl⟩

theorem still_peek : Still Reader.peek := by
  apply still_get.bind
  intro c
  cases c.peek? with
  | none => exact still_fail _ _
  | some t => exact still_pure t

theorem still_groupEnd : Still Reader.groupEnd := by
  apply still_peek.bind
  intro t
  split
  · apply still_get.bind
    intro c
    cases c.close? t with
    | none => exact still_fail _ _
    | some close => exact still_pure close
  · exact still_fail _ _

theorem Steady.of_ok (h : ∀ c, ∃ a c', r.run c = .ok a c') : Steady r := by
  intro c e c' he
  obtain ⟨a, d, hr⟩ := h c
  rw [hr] at he
  cases he

theorem steady_skip (n : Nat) (a : α) : Steady (do Reader.skip n; pure a) :=
  .of_ok fun c => ⟨a, c.advance n, rfl⟩

theorem steady_set (c : Cursor) (a : α) : Steady (do set c; pure a) := .of_ok fun _ => ⟨a, c, rfl⟩

theorem steady_popKind (kind : Token.Kind) : Steady (Reader.popKind kind) := by
  apply still_peek.bind_steady
  intro t
  split
  · exact steady_skip 1 t.text
  · exact (still_fail _ _).steady

theorem steady_popKeyword (allowed : List String) : Steady (Reader.popKeyword allowed) := by
  apply still_peek.bind_steady
  intro t
  split
  · exact steady_skip 1 t.text
  · exact (still_fail _ _).steady

theorem Operation.run_steady (op : Operation) : Steady op.run := by
  cases op with
  | peek => exact still_peek.steady.map _
  | pop => exact (still_peek.bind_steady fun t => steady_skip 1 t).map _
  | popKind kind => exact (steady_popKind kind).map _
  | popKeyword allowed => exact (steady_popKeyword allowed).map _
  | popGroup =>
    refine Steady.map ?_ _
    exact still_groupEnd.bind_steady fun _ => still_get.bind_steady fun _ => steady_set _ _
  | popItems =>
    refine Steady.map ?_ _
    exact still_groupEnd.bind_steady fun _ => still_get.bind_steady fun c =>
      (still_liftExcept _).bind_steady fun cs => steady_set _ cs
  | _ => exact .of_ok fun _ => ⟨_, _, rfl⟩

end Steady

section Step

variable {op : Operation} {answer : Answer}

theorem inRange_advance {t : Token} (h : c.peek? = some t) : (c.advance 1).InRange :=
  (List.getElem?_eq_some_iff.mp h).1

theorem InRange.of_close {t : Token} (h : c.close? t = some close) :
    InRange { c with position := close + 1 } :=
  (close?_bounds h).2

theorem CutFrom.inRange {n : Nat} (h : d.CutFrom n) : d.InRange := by
  rw [InRange, h.start]
  exact Nat.zero_le _

theorem Operation.inRange_of_run (hc : c.InRange) (h : op.run.run c = .ok answer c') :
    c'.InRange := by
  change Reads op.run c answer c' at h
  cases op with
  | peek =>
    obtain ⟨t, ht, -⟩ := Reads.map_iff.mp h
    obtain ⟨-, rfl⟩ := Reads.peek_iff.mp ht
    exact hc
  | pop =>
    obtain ⟨t, ht, -⟩ := Reads.map_iff.mp h
    obtain ⟨u, hu, hr⟩ := Reads.peek_bind_iff.mp ht
    obtain ⟨-, rfl⟩ := Reads.skip_pure_iff.mp hr
    exact inRange_advance hu
  | popKind kind =>
    obtain ⟨w, hw, -⟩ := Reads.map_iff.mp h
    obtain ⟨t, ht, -, -, rfl⟩ := Reads.popKind_iff.mp hw
    exact inRange_advance ht
  | popKeyword allowed =>
    obtain ⟨w, hw, -⟩ := Reads.map_iff.mp h
    obtain ⟨rest, hs, -, rfl⟩ := Reads.popKeyword_iff.mp hw
    obtain ⟨t, ht, -⟩ := symbols_eq_cons.mp hs
    exact inRange_advance ht
  | popGroup =>
    obtain ⟨inner, hi, -⟩ := Reads.map_iff.mp h
    obtain ⟨t, close, -, -, hcl, -, rfl⟩ := Reads.popGroup_iff.mp hi
    exact .of_close hcl
  | popItems =>
    obtain ⟨cs, hi, -⟩ := Reads.map_iff.mp h
    obtain ⟨t, close, -, -, hcl, -, rfl⟩ := Reads.popItems_iff.mp hi
    exact .of_close hcl
  | reset =>
    cases h
    exact Nat.zero_le _
  | _ =>
    cases h
    exact hc

/-- Whatever the links say, what is cut out lies between the brackets of a group. -/
theorem Operation.cutFrom_of_run (hop : op.cuts = true) (h : op.run.run c = .ok answer c') :
    ∀ d ∈ answer.handedOut, d.CutFrom c.tokens.length := by
  change Reads op.run c answer c' at h
  cases op with
  | popGroup =>
    obtain ⟨inner, hi, rfl⟩ := Reads.map_iff.mp h
    obtain ⟨t, close, -, -, hcl, rfl, -⟩ := Reads.popGroup_iff.mp hi
    obtain ⟨hf, hp⟩ := close?_bounds hcl
    exact List.forall_mem_singleton.mpr (cutFrom_slice hf hp)
  | popItems =>
    obtain ⟨cs, hi, rfl⟩ := Reads.map_iff.mp h
    obtain ⟨t, close, -, -, hcl, hcs, -⟩ := Reads.popItems_iff.mp hi
    exact cutFrom_of_items (close?_bounds hcl).2 hcs
  | _ => cases hop

theorem Operation.inRange_of_handedOut (hc : c.InRange) (h : op.run.run c = .ok answer c') :
    ∀ d ∈ answer.handedOut, d.InRange := by
  cases op with
  | popGroup | popItems => exact fun d hd => (cutFrom_of_run rfl h d hd).inRange
  | clone =>
    cases h
    exact List.forall_mem_singleton.mpr hc
  | peek | pop | popKind kind | popKeyword allowed =>
    obtain ⟨_, -, rfl⟩ := Reads.map_iff.mp h
    exact nofun
  | _ =>
    cases h
    exact nofun

theorem inRange_of_act {held : List Cursor} (h : ∀ c ∈ held, c.InRange) (turn : Nat × Operation) :
    ∀ c ∈ act held turn, c.InRange := by
  unfold act
  split
  next => exact h
  next c hc =>
    have hc := h c (List.mem_of_getElem? hc)
    split
    next answer c' hr =>
      intro d hd
      obtain hd | hd := List.mem_append.mp hd
      · obtain hd | rfl := List.mem_or_eq_of_mem_set hd
        · exact h d hd
        · exact Operation.inRange_of_run hc hr
      · exact Operation.inRange_of_handedOut hc hr d hd
    next e c' hr =>
      intro d hd
      obtain hd | rfl := List.mem_or_eq_of_mem_set hd
      · exact h d hd
      · rw [Operation.run_steady _ _ _ _ hr]
        exact hc

theorem inRange_of_perform {held : List Cursor} (h : ∀ c ∈ held, c.InRange)
    (script : List (Nat × Operation)) : ∀ c ∈ perform held script, c.InRange := by
  induction script generalizing held with
  | nil => exact h
  | cons turn script ih => exact ih (inRange_of_act h turn)

end Step

end Cursor

namespace Reader

open Cursor

variable {c : Cursor} {one one' : Reader Param}

theorem groupOf_congr (h : ∀ d : Cursor, d.tokens.length + 2 ≤ c.tokens.length →
    one.run d = one'.run d) : (groupOf one).run c = (groupOf one').run c := by
  unfold groupOf
  cases hc : popItems.run c with
  | error e c' => rw [run_bind_of_error hc, run_bind_of_error hc]
  | ok cs c' =>
    rw [run_bind_of_ok hc, run_bind_of_ok hc]
    obtain ⟨t, close, -, -, hcl, hcs, -⟩ := Reads.popItems_iff.mp hc
    have hshort (d) (hd : d ∈ cs) := (cutFrom_of_items (close?_bounds hcl).2 hcs d hd).shorter
    have hwithin : ∀ d ∈ cs, within d one = within d one' := by
      intro d hd
      rw [within, within, h d (hshort d hd)]
    exact congrArg (EStateM.run · c') (mapM_congr_left hwithin)

theorem parameterWith_congr (indexable : Bool)
    (h : ∀ d : Cursor, d.tokens.length + 2 ≤ c.tokens.length → one.run d = one'.run d) :
    (parameterWith (groupOf one) indexable).run c =
      (parameterWith (groupOf one') indexable).run c := by
  have hhead : (headWith (groupOf one)).run c = (headWith (groupOf one')).run c := by
    unfold headWith
    cases hc : (keyword? "tuple").run c with
    | error e c' => rw [run_bind_of_error hc, run_bind_of_error hc]
    | ok worded c' =>
      rw [run_bind_of_ok hc, run_bind_of_ok hc]
      have ht : c'.tokens = c.tokens := by
        obtain ⟨-, -, -, rfl⟩ := Reads.keyword?_iff.mp hc
        rfl
      rw [← ht] at h
      rw [EStateM.run_bind, EStateM.run_bind, EStateM.run_get]
      dsimp only
      split
      · rw [map_eq_pure_bind, map_eq_pure_bind, EStateM.run_bind, EStateM.run_bind,
          groupOf_congr h]
      · rfl
  rw [parameterWith, parameterWith, EStateM.run_bind, EStateM.run_bind, hhead]

/-- Any depth that is enough for the tokens does as well as any other. -/
theorem parameterWithin_congr {m n : Nat} (indexable : Bool) (hm : c.tokens.length < 2 * m)
    (hn : c.tokens.length < 2 * n) :
    (parameterWithin m indexable).run c = (parameterWithin n indexable).run c := by
  induction m generalizing c n indexable with
  | zero => omega
  | succ m ih =>
    obtain ⟨n, rfl⟩ := Nat.exists_eq_add_one_of_ne_zero (n := n) (by omega)
    rw [parameterWithin, parameterWithin]
    exact parameterWith_congr indexable fun d hd => ih false (by omega) (by omega)

theorem run_parameter_eq_within {n : Nat} (indexable : Bool) (hn : c.tokens.length < 2 * n) :
    (parameter indexable).run c = (parameterWithin n indexable).run c :=
  parameterWithin_congr indexable (by omega) hn

/-- A parameter is read by reading the parameters in its groups, without any bound. -/
theorem run_parameter_eq (indexable : Bool) :
    (parameter indexable).run c = (parameterWith (groupOf (parameter false)) indexable).run c := by
  rw [run_parameter_eq_within (n := c.tokens.length + 1) indexable (by omega), parameterWithin]
  exact parameterWith_congr indexable fun d hd => (run_parameter_eq_within false (by omega)).symm

end Reader

namespace Cursor

/-- Whatever is done next with the cursor stays inside its tokens, and comes to an end. -/
structure Safe (c : Cursor) : Prop where
  inRange : c.position ≤ c.tokens.length
  /-- Every difference, look-up and slice has a result, and so has the way along the links. -/
  guarded (op : Operation) : op.guarded c = some (op.run.run c)
  unmoved (op : Operation) (e : Error) (c' : Cursor) : op.run.run c = .error e c' → c' = c
  cut (op : Operation) (answer : Answer) (c' : Cursor) :
    op.cuts = true → op.run.run c = .ok answer c' →
      ∀ d ∈ answer.handedOut, d.CutFrom c.tokens.length
  /-- The depth is no bound on reading parameters. -/
  unbounded (indexable : Bool) (depth : Nat) : c.tokens.length < 2 * depth →
    (Reader.parameterWithin depth indexable).run c = (Reader.parameter indexable).run c
  unfolds (indexable : Bool) : (Reader.parameter indexable).run c =
    (Reader.parameterWith (Reader.groupOf (Reader.parameter false)) indexable).run c

/-- Cursors over any tokens are safe, at whatever point of whatever is done with them. -/
theorem safe_of_perform {tokens : List Token} {script : List (Nat × Operation)} {c : Cursor}
    (h : c ∈ perform [ofTokens tokens] script) : c.Safe := by
  have hc : c.InRange :=
    inRange_of_perform (List.forall_mem_singleton.mpr (Nat.zero_le _)) script c h
  constructor
  case inRange => exact hc
  case guarded => exact Operation.guarded_eq hc
  case unmoved => exact fun op => op.run_steady c
  case cut => exact fun op answer c' hop => Operation.cutFrom_of_run hop
  case unbounded => exact fun indexable depth hd => (Reader.run_parameter_eq_within indexable hd).symm
  case unfolds => exact Reader.run_parameter_eq

/-- A group with links that lead to themselves and past the tokens. -/
def forged : List Token :=
  [⟨.openParen, "(", 0, 0, some 4, some 9, some 2, none⟩,
   ⟨.openParen, "(", 1, 0, some 1, none, some 1, none⟩,
   ⟨.comma, ",", 2, 0, none, none, some 4, some 5⟩,
   ⟨.openParen, "(", 3, 0, some 7, some 5, some 3, none⟩,
   ⟨.closeParen, ")", 4, 0, some 0, none, none, none⟩]

/-- What stands before the comma, after its group has been tried. -/
def forgedItem : Cursor := ⟨[⟨.openParen, "(", 1, 0, some 0, none, some 0, none⟩], 0⟩

theorem safe_of_perform_forged :
    forgedItem ∈ perform [ofTokens forged] [(0, .popItems), (1, .popItems), (2, .popGroup)] ∧
      forgedItem.Safe := by
  have h : forgedItem ∈
      perform [ofTokens forged] [(0, .popItems), (1, .popItems), (2, .popGroup)] := by
    decide
  exact ⟨h, safe_of_perform h⟩

end Cursor

end ContractAbi
