import ContractAbi.Proofs.Traversal

/-!
Records in place of sequences. A walk that changes nothing at the leaves makes of a value the one
with sequences throughout, and no walk tells the two apart.
-/

namespace ContractAbi

/-- Returns every leaf as it is. -/
def Walk.keeping {σ : Type} (_ : Elementary) (v : Value) : Walk σ Value := return v

namespace Ty

/-- Sequences at all arrays and tuples, however deep. -/
inductive Positional : Ty → Value → Prop
  | leaf (type : Elementary) (v : Value) : Positional (.elementary type) v
  | inner {t : Ty} {items : List Value} {places : List (Ty × Value)}
      (h : t.Opens (.arr items) places) (each : ∀ place ∈ places, Positional place.1 place.2) :
      Positional t (.arr items)

/-- Values that may differ in whether the components of a tuple stand in a record or a sequence. -/
inductive Interchangeable : Ty → Value → Value → Prop
  | refl (t : Ty) (v : Value) : Interchangeable t v v
  | inner {t : Ty} {v w : Value} {places : List (Ty × Value)} {others : List Value}
      (hv : t.Opens v places) (hw : t.Opens w ((places.map Prod.fst).zip others))
      (each : List.Forall₂ (fun place other => Interchangeable place.1 place.2 other) places
        others) :
      Interchangeable t v w

variable {t : Ty} {v w : Value} {places : List (Ty × Value)} {others : List Value}

/-- A sequence of as many values has the shape as well, whatever these are. -/
theorem Opens.sequence (h : t.Opens v places) (hl : places.length = others.length) :
    t.Opens (.arr others) ((places.map Prod.fst).zip others) := by
  have htuple {components : List Param} {items : List Value}
      (hi : components.length = items.length)
      (hl : ((components.map Param.type).zip items).length = others.length) :
      Ty.Opens (.tuple components) (.arr others)
        ((((components.map Param.type).zip items).map Prod.fst).zip others) := by
    rw [List.length_zip, List.length_map, hi, Nat.min_self] at hl
    rw [List.map_fst_zip (Nat.le_of_eq (by rw [List.length_map, hi]))]
    exact .tuple (hi.trans hl)
  cases h with
  | @array element length items counted =>
    rw [List.length_map] at hl
    have htypes : (items.map (element, ·)).map Prod.fst = others.map fun _ => element := by
      rw [List.map_map, List.map_const', ← hl]
      exact List.map_const'
    rw [htypes, ← List.map_prod_right_eq_zip]
    exact .array fun n hn => hl ▸ counted n hn
  | tuple counted => exact htuple counted hl
  | record held => exact htuple held.length_eq hl

section Walks

variable {σ : Type} {leaf : Elementary → Value → Walk σ Value}

theorem mapM_walk_congr
    (h : List.Forall₂ (fun place other => place.1.walk leaf place.2 = place.1.walk leaf other)
      places others) :
    (places.mapM fun place => place.1.walk leaf place.2) =
      ((places.map Prod.fst).zip others).mapM fun place => place.1.walk leaf place.2 := by
  induction h with
  | nil => rfl
  | cons h _ ih => rw [List.mapM_cons, h, ih, List.map_cons, List.zip_cons_cons, List.mapM_cons]

/-- No transform tells interchangeable values apart, even one that keeps a record of its calls. -/
theorem walk_eq_of_interchangeable (leaf : Elementary → Value → Walk σ Value)
    (h : t.Interchangeable v w) : t.walk leaf v = t.walk leaf w := by
  induction t, v using layer_induction generalizing w with
  | step t v ih =>
    cases h with
    | refl => rfl
    | inner hv hw each =>
      have hmem := (List.forall₂_and_left _ _).mpr ⟨ih _ hv, each⟩
      rw [walk_of_opens hv, walk_of_opens hw, mapM_walk_congr]
      exact hmem.imp fun place other ⟨hwalk, hother⟩ => hwalk hother

/-- What is kept of a value has sequences throughout, and is interchangeable with it. -/
theorem positional_of_run_keeping {s s' : σ} (h : (t.walk Walk.keeping v).run s = .ok w s') :
    s' = s ∧ t.Positional w ∧ t.Interchangeable v w := by
  induction t, v using layer_induction generalizing w s s' with
  | step t v ih =>
    obtain ⟨type, rfl⟩ | ⟨inside, ho⟩ | ⟨fault, hm⟩ := t.layer_cases v
    · cases h
      exact ⟨rfl, .leaf type v, .refl _ v⟩
    · rw [walk_of_opens ho, run_map_eq_ok_iff] at h
      obtain ⟨items, hrun, rfl⟩ := h
      obtain ⟨rfl, hitems⟩ := forall₂_of_run_mapM hrun fun place hm w s' => ih inside ho place hm
      have hpositional : List.Forall₂ Positional (inside.map Prod.fst) items :=
        List.forall₂_map_left_iff.mpr (hitems.imp fun _ _ h => h.1)
      have hshape := ho.sequence hitems.length_eq
      exact ⟨rfl, .inner hshape fun place hm => (List.forall₂_iff_zip.mp hpositional).2 hm,
        .inner ho hshape (hitems.imp fun _ _ h => h.2)⟩
    · rw [walk_of_misfits hm] at h
      cases h

end Walks

end Ty

/-- A walk that keeps the leaves makes of a value the one with sequences throughout, from which no
walk tells it apart: records stand for the sequences of the values that they hold for the
components, at whatever depth, and all else in them goes unseen. -/
theorem keyed_and_positional_interchangeable (t : Ty) :
    (∀ (σ : Type) (v w : Value) (s s' : σ), (t.walk Walk.keeping v).run s = .ok w s' →
      t.Positional w ∧ (t.walk Walk.keeping w).run s = .ok w s' ∧
      ∀ (τ : Type) (leaf : Elementary → Value → Walk τ Value), t.walk leaf v = t.walk leaf w) ∧
    ∀ v w, t.Interchangeable v w →
      ∀ (τ : Type) (leaf : Elementary → Value → Walk τ Value), t.walk leaf v = t.walk leaf w := by
  refine ⟨fun σ v w s s' h => ?_, fun v w h τ leaf => Ty.walk_eq_of_interchangeable leaf h⟩
  obtain ⟨-, hpositional, hsame⟩ := Ty.positional_of_run_keeping h
  exact ⟨hpositional, Ty.walk_eq_of_interchangeable _ hsame ▸ h,
    fun τ leaf => Ty.walk_eq_of_interchangeable leaf hsame⟩

/-- A record with its keys out of order and one too many, which holds pairs of both forms; the
record at the leaf is no pair and stays. -/
theorem keyed_and_positional_interchangeable_nested :
    let pair : Ty := .tuple [⟨some ⟨"x", by decide⟩, none, .elementary .string⟩,
      ⟨some ⟨"y", by decide⟩, none, .elementary .bool⟩]
    let pairs : Ty := .array pair none
    let t : Ty := .tuple [⟨some ⟨"a", by decide⟩, none, pairs⟩,
      ⟨some ⟨"b", by decide⟩, none, .elementary .string⟩]
    let keyed : Value := .obj [("z", .null), ("y", .bool true), ("x", .str "s")]
    let given : Value := .obj [("b", keyed), ("a", .arr [keyed, .arr [.str "t", .null]])]
    let mixed : Value := .arr [.arr [keyed, .arr [.str "t", .null]], keyed]
    let made : Value :=
      .arr [.arr [.arr [.str "s", .bool true], .arr [.str "t", .null]], keyed]
    t.Positional made ∧ t.walk Walk.noting given = t.walk Walk.noting made ∧
      t.walk Walk.noting given = t.walk Walk.noting mixed := by
  intro pair pairs t keyed given mixed made
  have hkept : (t.walk Walk.keeping given).run () = .ok made () := rfl
  have hgiven : t.Opens given
      [(pairs, .arr [keyed, .arr [.str "t", .null]]), (.elementary .string, keyed)] :=
    @Ty.Opens.record _ _ [.arr [keyed, .arr [.str "t", .null]], keyed]
      (.cons ⟨_, rfl, rfl⟩ (.cons ⟨_, rfl, rfl⟩ .nil))
  have hmixed : t.Interchangeable given mixed :=
    .inner hgiven (.tuple rfl) (.cons (.refl _ _) (.cons (.refl _ _) .nil))
  obtain ⟨hpositional, -, hwalk⟩ := (keyed_and_positional_interchangeable t).1 _ _ _ _ _ hkept
  exact ⟨hpositional, hwalk _ Walk.noting,
    (keyed_and_positional_interchangeable t).2 given mixed hmixed _ Walk.noting⟩

end ContractAbi
