import ContractAbi.Proofs.Outcome
import ContractAbi.Walk.Deferred

/-!
Values that have the shape of a type. Planning a walk succeeds for them, and for no others.
-/

namespace ContractAbi

namespace Ty

/-- The component's value in a record. -/
def Holds (fields : List (String × Value)) (p : Param) (item : Value) : Prop :=
  ∃ name, p.name = some name ∧ Value.field? fields name.text = some item

/-- An array has as many elements as its type says, if it says; a tuple has a value for each
component, by position or by name; and all of these have the shape of their types. -/
inductive Fits : Ty → Value → Prop
  | elementary (type : Elementary) (v : Value) : Fits (.elementary type) v
  | array {element : Ty} {length : Option UInt64} {items : List Value}
      (counted : ∀ n ∈ length, items.length = n.toNat) (each : ∀ item ∈ items, Fits element item) :
      Fits (.array element length) (.arr items)
  | tuple {components : List Param} {items : List Value}
      (each : List.Forall₂ (fun p item => Fits p.type item) components items) :
      Fits (.tuple components) (.arr items)
  | record {components : List Param} {fields : List (String × Value)} {items : List Value}
      (held : List.Forall₂ (Holds fields) components items)
      (each : List.Forall₂ (fun p item => Fits p.type item) components items) :
      Fits (.tuple components) (.obj fields)

theorem arrayItems_eq_ok {t : Ty} {length : Option UInt64} {v : Value} {items : List Value} :
    t.arrayItems length v = .ok items ↔
      v = .arr items ∧ ∀ n ∈ length, items.length = n.toNat := by
  cases v with
  | arr found =>
    cases length with
    | none => simp [arrayItems]
    | some n =>
      by_cases h : found.length = n.toNat
      · simp only [arrayItems, Option.any_some, h, bne_self_eq_false, Bool.false_eq_true, if_false,
          Except.ok.injEq, Value.arr.injEq, Option.mem_some, forall_eq']
        exact ⟨fun hf => ⟨hf, hf ▸ h⟩, And.left⟩
      · simp only [arrayItems, Option.any_some, bne_iff_ne.mpr (Ne.symm h), if_true,
          Value.arr.injEq, Option.mem_some, forall_eq']
        exact iff_of_false nofun fun ⟨hf, hl⟩ => h (hf ▸ hl)
  | _ => simp [arrayItems]

theorem selectItems_eq_ok {t : Ty} {v : Value} {fields : List (String × Value)} {ps : List Param}
    {items : List Value} :
    t.selectItems v fields ps = .ok items ↔ List.Forall₂ (Holds fields) ps items := by
  induction ps generalizing items with
  | nil => simp [selectItems, eq_comm]
  | cons p rest ih =>
    rw [List.forall₂_cons_left_iff, selectItems]
    cases hn : p.name with
    | none => simp [Holds, hn]
    | some name =>
      cases hf : Value.field? fields name.text with
      | none => simp [Holds, hn, hf]
      | some item =>
        simp only [Holds, hn, hf, map_eq_ok_iff, ih, Option.some.injEq, exists_eq_left']
        constructor
        · rintro ⟨more, hm, rfl⟩
          exact ⟨item, more, rfl, hm, rfl⟩
        · rintro ⟨_, more, rfl, hm, rfl⟩
          exact ⟨more, hm, rfl⟩

theorem tupleItems_eq_ok {t : Ty} {components : List Param} {v : Value} {items : List Value} :
    t.tupleItems components v = .ok items ↔
      (v = .arr items ∧ components.length = items.length) ∨
        ∃ fields, v = .obj fields ∧ List.Forall₂ (Holds fields) components items := by
  cases v with
  | arr found =>
    by_cases h : found.length = components.length
    · simp only [tupleItems, if_pos h, Except.ok.injEq, Value.arr.injEq, reduceCtorEq, false_and,
        exists_false, or_false]
      exact ⟨fun hf => ⟨hf, hf ▸ h.symm⟩, And.left⟩
    · simp only [tupleItems, if_neg h, Value.arr.injEq, reduceCtorEq, false_and, exists_false,
        or_false, false_iff, not_and]
      exact fun hf hl => h (hf ▸ hl.symm)
  | obj fields => simp [tupleItems, selectItems_eq_ok]
  | _ => simp [tupleItems]

theorem length_eq_of_tupleItems {t : Ty} {components : List Param} {v : Value} {items : List Value}
    (h : t.tupleItems components v = .ok items) : components.length = items.length := by
  rcases tupleItems_eq_ok.mp h with ⟨-, hl⟩ | ⟨fields, -, hf⟩
  · exact hl
  · exact hf.length_eq

theorem exists_of_arrayItems_eq_error {t : Ty} {length : Option UInt64} {v : Value} {e : Error}
    (h : t.arrayItems length v = .error e) : ∃ fault, e = .shape fault t.text v := by
  cases v with
  | arr items =>
    rw [arrayItems] at h
    split at h
    next => exact ⟨.arrayLength, (Except.error.inj h).symm⟩
    next => cases h
  | _ => exact ⟨.notArray, (Except.error.inj h).symm⟩

theorem exists_of_selectItems_eq_error {t : Ty} {v : Value} {fields : List (String × Value)}
    {ps : List Param} {e : Error} (h : t.selectItems v fields ps = .error e) :
    ∃ fault, e = .shape fault t.text v := by
  induction ps with
  | nil => cases h
  | cons p rest ih =>
    rw [selectItems] at h
    split at h
    next => exact ⟨.unnamedComponents, (Except.error.inj h).symm⟩
    next name _ =>
      split at h
      next => exact ⟨.missingComponent name.text, (Except.error.inj h).symm⟩
      next =>
        cases hs : t.selectItems v fields rest with
        | error e' =>
          rw [hs] at h
          exact ih (hs.trans h)
        | ok items =>
          rw [hs] at h
          cases h

theorem exists_of_tupleItems_eq_error {t : Ty} {components : List Param} {v : Value} {e : Error}
    (h : t.tupleItems components v = .error e) : ∃ fault, e = .shape fault t.text v := by
  cases v with
  | arr items =>
    rw [tupleItems] at h
    split at h
    next => cases h
    next => exact ⟨.tupleLength, (Except.error.inj h).symm⟩
  | obj fields => exact exists_of_selectItems_eq_error h
  | _ => exact ⟨.notTuple, (Except.error.inj h).symm⟩

theorem planEach_eq_mapM (components : List Param) (items : List Value) :
    planEach components items =
      (components.zip items).mapM fun part => part.1.type.plan part.2 := by
  induction components generalizing items with
  | nil => cases items <;> rfl
  | cons p rest ih =>
    obtain ⟨name, indexed, type⟩ := p
    cases items with
    | nil => rfl
    | cons v items => rw [planEach, ih, List.zip_cons_cons, List.mapM_cons]

/-- A walk can be planned for the values that have the shape of the type. -/
theorem exists_plan_iff (t : Ty) (v : Value) : (∃ plan, t.plan v = .ok plan) ↔ t.Fits v := by
  induction t using Ty.induction generalizing v with
  | elementary type => exact iff_of_true ⟨_, rfl⟩ (.elementary type v)
  | array element length ih =>
    have hplan (items : List Value) : (∃ parts, items.mapM element.plan = .ok parts) ↔
        ∀ item ∈ items, element.Fits item := by
      simp only [exists_mapM_eq_ok_iff, ih]
    constructor
    · rintro ⟨plan, h⟩
      obtain ⟨items, hi, h⟩ := bind_eq_ok_iff.mp h
      obtain ⟨parts, hp, -⟩ := bind_eq_ok_iff.mp h
      obtain ⟨rfl, hl⟩ := arrayItems_eq_ok.mp hi
      exact .array hl ((hplan items).mp ⟨parts, hp⟩)
    · rintro (_ | ⟨hl, hi⟩)
      obtain ⟨parts, hp⟩ := (hplan _).mpr hi
      exact ⟨.branch parts, bind_eq_ok_iff.mpr
        ⟨_, arrayItems_eq_ok.mpr ⟨rfl, hl⟩, bind_eq_ok_iff.mpr ⟨parts, hp, rfl⟩⟩⟩
  | tuple components ih =>
    have hplan {items : List Value} (hl : components.length = items.length) :
        (∃ parts, planEach components items = .ok parts) ↔
          List.Forall₂ (fun p item => Fits p.type item) components items := by
      rw [planEach_eq_mapM, exists_mapM_eq_ok_iff, List.forall₂_iff_zip]
      refine ⟨fun h => ⟨hl, fun {p item} hm => (ih p (List.of_mem_zip hm).1 item).mp (h _ hm)⟩,
        fun h part hm => (ih _ (List.of_mem_zip hm).1 _).mpr (h.2 hm)⟩
    have hfill {items : List Value} (hi : (tuple components).tupleItems components v = .ok items)
        (he : List.Forall₂ (fun p item => Fits p.type item) components items) :
        ∃ plan, (tuple components).plan v = .ok plan := by
      obtain ⟨parts, hp⟩ := (hplan he.length_eq).mpr he
      exact ⟨.branch parts,
        bind_eq_ok_iff.mpr ⟨items, hi, bind_eq_ok_iff.mpr ⟨parts, hp, rfl⟩⟩⟩
    constructor
    · rintro ⟨plan, h⟩
      obtain ⟨items, hi, h⟩ := bind_eq_ok_iff.mp h
      obtain ⟨parts, hp, -⟩ := bind_eq_ok_iff.mp h
      have he := (hplan (length_eq_of_tupleItems hi)).mp ⟨parts, hp⟩
      rcases tupleItems_eq_ok.mp hi with ⟨rfl, -⟩ | ⟨fields, rfl, hf⟩
      · exact .tuple he
      · exact .record hf he
    · intro h
      cases h with
      | tuple he => exact hfill (tupleItems_eq_ok.mpr (.inl ⟨rfl, he.length_eq⟩)) he
      | record hf he => exact hfill (tupleItems_eq_ok.mpr (.inr ⟨_, rfl, hf⟩)) he

/-- What keeps a walk from being planned is the shape of a value. -/
theorem exists_of_plan_eq_error {t : Ty} {v : Value} {e : Error} (h : t.plan v = .error e) :
    ∃ fault type value, e = .shape fault type value := by
  induction t using Ty.induction generalizing v with
  | elementary type => cases h
  | array element length ih =>
    rcases bind_eq_error_iff.mp h with hi | ⟨items, -, h⟩
    · obtain ⟨fault, rfl⟩ := exists_of_arrayItems_eq_error hi
      exact ⟨fault, _, _, rfl⟩
    · rcases bind_eq_error_iff.mp h with hp | ⟨parts, -, h⟩
      · obtain ⟨before, item, after, -, -, he⟩ := exists_of_mapM_eq_error hp
        exact ih he
      · cases h
  | tuple components ih =>
    rcases bind_eq_error_iff.mp h with hi | ⟨items, -, h⟩
    · obtain ⟨fault, rfl⟩ := exists_of_tupleItems_eq_error hi
      exact ⟨fault, _, _, rfl⟩
    · rcases bind_eq_error_iff.mp h with hp | ⟨parts, -, h⟩
      · rw [planEach_eq_mapM] at hp
        obtain ⟨before, part, after, hz, -, he⟩ := exists_of_mapM_eq_error hp
        have hm : part ∈ components.zip items :=
          hz ▸ List.mem_append_right before List.mem_cons_self
        exact ih part.1 (List.of_mem_zip hm).1 he
      · cases h

end Ty

end ContractAbi
