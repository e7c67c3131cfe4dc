import ContractAbi.Proofs.Deferral

/-!
The order of a walk. It comes to a place before it comes to those inside, checks one level of the
value there or calls the transform once, and ends at the first place where either fails.
-/

namespace ContractAbi

/-- One level of a value along one level of a type. -/
inductive Layer where
  | leaf (type : Elementary)
  | inner (places : List (Ty × Value))

namespace Ty

/-- A value has the shape of an array or of a tuple, and these are the places inside, in order. -/
inductive Opens : Ty → Value → List (Ty × Value) → Prop
  | array {element : Ty} {length : Option UInt64} {items : List Value}
      (counted : ∀ n ∈ length, items.length = n.toNat) :
      Opens (.array element length) (.arr items) (items.map (element, ·))
  | tuple {components : List Param} {items : List Value}
      (counted : components.length = items.length) :
      Opens (.tuple components) (.arr items) ((components.map Param.type).zip items)
  | record {components : List Param} {fields : List (String × Value)} {items : List Value}
      (held : List.Forall₂ (Holds fields) components items) :
      Opens (.tuple components) (.obj fields) ((components.map Param.type).zip items)

/-- A record has no value for a component. -/
inductive Lacks (fields : List (String × Value)) : Param → ShapeFault → Prop
  | unnamed {p : Param} (h : p.name = none) : Lacks fields p .unnamedComponents
  | missing {p : Param} {name : Identifier} (hn : p.name = some name)
      (hf : Value.field? fields name.text = none) :
      Lacks fields p (.missingComponent name.text)

/-- What is wrong with a value that has not the shape of an array or of a tuple. Of a record it is
the first component without a value that counts. -/
inductive Misfits : Ty → Value → ShapeFault → Prop
  | notArray {element : Ty} {length : Option UInt64} {v : Value} (h : ∀ items, v ≠ .arr items) :
      Misfits (.array element length) v .notArray
  | arrayLength {element : Ty} {n : UInt64} {items : List Value} (h : items.length ≠ n.toNat) :
      Misfits (.array element (some n)) (.arr items) .arrayLength
  | notTuple {components : List Param} {v : Value} (ha : ∀ items, v ≠ .arr items)
      (ho : ∀ fields, v ≠ .obj fields) : Misfits (.tuple components) v .notTuple
  | tupleLength {components : List Param} {items : List Value}
      (h : components.length ≠ items.length) :
      Misfits (.tuple components) (.arr items) .tupleLength
  | record {before after : List Param} {p : Param} {fields : List (String × Value)}
      {fault : ShapeFault} (held : ∀ q ∈ before, ∃ item, Holds fields q item)
      (h : Lacks fields p fault) : Misfits (.tuple (before ++ p :: after)) (.obj fields) fault

/-- The outermost level of what a walk does. -/
def layer : Ty → Value → Except Error Layer
  | elementary type, _ => .ok (.leaf type)
  | array element length, v =>
    ((array element length).arrayItems length v).map fun items => .inner (items.map (element, ·))
  | tuple components, v =>
    ((tuple components).tupleItems components v).map fun items =>
      .inner ((components.map Param.type).zip items)

variable {t : Ty} {v : Value} {places : List (Ty × Value)}

theorem layer_eq_inner_iff : t.layer v = .ok (.inner places) ↔ t.Opens v places := by
  cases t with
  | elementary type => exact iff_of_false nofun nofun
  | array element length =>
    simp only [layer, map_eq_ok_iff, arrayItems_eq_ok, Layer.inner.injEq]
    constructor
    · rintro ⟨items, ⟨rfl, hl⟩, rfl⟩
      exact .array hl
    · rintro ⟨hl⟩
      exact ⟨_, ⟨rfl, hl⟩, rfl⟩
  | tuple components =>
    simp only [layer, map_eq_ok_iff, tupleItems_eq_ok, Layer.inner.injEq]
    constructor
    · rintro ⟨items, ⟨rfl, hl⟩ | ⟨fields, rfl, hf⟩, rfl⟩
      · exact .tuple hl
      · exact .record hf
    · rintro (_ | hl | hf)
      · exact ⟨_, .inl ⟨rfl, hl⟩, rfl⟩
      · exact ⟨_, .inr ⟨_, rfl, hf⟩, rfl⟩

theorem selectItems_of_lacks {fields : List (String × Value)} {before : List Param} {p : Param}
    {fault : ShapeFault} (held : ∀ q ∈ before, ∃ item, Holds fields q item)
    (h : Lacks fields p fault) (after : List Param) :
    t.selectItems v fields (before ++ p :: after) = .error (.shape fault t.text v) := by
  induction before with
  | nil =>
    cases h with
    | unnamed h => rw [List.nil_append, selectItems, h]
    | missing hn hf =>
      rw [List.nil_append, selectItems, hn]
      dsimp only
      rw [hf]
  | cons q rest ih =>
    obtain ⟨⟨item, name, hn, hf⟩, hrest⟩ := List.forall_mem_cons.mp held
    rw [List.cons_append, selectItems, hn]
    dsimp only
    rw [hf]
    exact map_eq_error_iff.mpr (ih hrest)

/-- One component after the other is looked up, and the first without a value is blamed. -/
theorem exists_lacks_of_selectItems {fields : List (String × Value)} {ps : List Param} {e : Error}
    (h : t.selectItems v fields ps = .error e) :
    ∃ before p after fault, ps = before ++ p :: after ∧
      (∀ q ∈ before, ∃ item, Holds fields q item) ∧ Lacks fields p fault := by
  induction ps with
  | nil => cases h
  | cons p rest ih =>
    cases hn : p.name with
    | none => exact ⟨[], p, rest, _, rfl, List.forall_mem_nil _, .unnamed hn⟩
    | some name =>
      cases hf : Value.field? fields name.text with
      | none => exact ⟨[], p, rest, _, rfl, List.forall_mem_nil _, .missing hn hf⟩
      | some item =>
        rw [selectItems, hn] at h
        dsimp only at h
        rw [hf] at h
        obtain ⟨before, q, after, fault, rfl, held, hl⟩ := ih (map_eq_error_iff.mp h)
        exact ⟨p :: before, q, after, fault, rfl,
          List.forall_mem_cons.mpr ⟨⟨item, name, hn, hf⟩, held⟩, hl⟩

theorem layer_of_misfits {fault : ShapeFault} (h : t.Misfits v fault) :
    t.layer v = .error (.shape fault t.text v) := by
  cases h with
  | notArray h =>
    rw [layer, map_eq_error_iff]
    cases v with
    | arr items => exact absurd rfl (h items)
    | _ => rfl
  | arrayLength h =>
    rw [layer, map_eq_error_iff, arrayItems]
    exact if_pos (by simpa using h.symm)
  | notTuple ha ho =>
    rw [layer, map_eq_error_iff]
    cases v with
    | arr items => exact absurd rfl (ha items)
    | obj fields => exact absurd rfl (ho fields)
    | _ => rfl
  | tupleLength h =>
    rw [layer, map_eq_error_iff, tupleItems]
    exact if_neg h.symm
  | record held h =>
    rw [layer, map_eq_error_iff]
    exact selectItems_of_lacks held h _

/-- A place is a leaf, or its value has the shape that it should, or something is wrong with it. -/
theorem layer_cases (t : Ty) (v : Value) :
    (∃ type, t = .elementary type) ∨ (∃ places, t.Opens v places) ∨ ∃ fault, t.Misfits v fault := by
  cases t with
  | elementary type => exact .inl ⟨type, rfl⟩
  | array element length =>
    right
    cases v with
    | arr items =>
      by_cases h : ∀ n ∈ length, items.length = n.toNat
      · exact .inl ⟨_, .array h⟩
      · simp only [not_forall] at h
        obtain ⟨n, rfl, hn⟩ := h
        exact .inr ⟨_, .arrayLength hn⟩
    | _ => exact .inr ⟨_, .notArray nofun⟩
  | tuple components =>
    right
    cases v with
    | arr items =>
      by_cases h : components.length = items.length
      · exact .inl ⟨_, .tuple h⟩
      · exact .inr ⟨_, .tupleLength h⟩
    | obj fields =>
      cases h : selectItems (.tuple components) (.obj fields) fields components with
      | ok items => exact .inl ⟨_, .record (selectItems_eq_ok.mp h)⟩
      | error e =>
        obtain ⟨before, p, after, fault, rfl, held, hl⟩ := exists_lacks_of_selectItems h
        exact .inr ⟨fault, .record held hl⟩
    | _ => exact .inr ⟨_, .notTuple nofun nofun⟩

/-- The types of the places inside are what the type is made of. -/
theorem layer_induction {motive : Ty → Value → Prop}
    (step : ∀ t v, (∀ places, t.Opens v places → ∀ place ∈ places, motive place.1 place.2) →
      motive t v) (t : Ty) (v : Value) : motive t v := by
  induction t using Ty.induction generalizing v with
  | elementary type => exact step _ v nofun
  | array element length ih =>
    refine step _ v fun places ho place hp => ?_
    cases ho
    obtain ⟨item, -, rfl⟩ := List.mem_map.mp hp
    exact ih item
  | tuple components ih =>
    refine step _ v fun places ho place hp => ?_
    obtain ⟨items, rfl⟩ : ∃ items, places = (components.map Param.type).zip items := by
      cases ho <;> exact ⟨_, rfl⟩
    obtain ⟨p, hp, he⟩ := List.mem_map.mp (List.of_mem_zip hp).1
    exact he ▸ ih p hp place.2

variable {σ : Type} {leaf : Elementary → Value → Walk σ Value}

theorem walk_of_opens (h : t.Opens v places) :
    t.walk leaf v = .arr <$> places.mapM fun place => place.1.walk leaf place.2 := by
  cases h with
  | array counted =>
    rw [walk_array_of_ok (arrayItems_eq_ok.mpr ⟨rfl, counted⟩), List.mapM_map]
    rfl
  | tuple counted =>
    rw [walk_tuple_of_ok (tupleItems_eq_ok.mpr (.inl ⟨rfl, counted⟩)), List.zip_map_left,
      List.mapM_map]
    rfl
  | record held =>
    rw [walk_tuple_of_ok (tupleItems_eq_ok.mpr (.inr ⟨_, rfl, held⟩)), List.zip_map_left,
      List.mapM_map]
    rfl

theorem walk_of_misfits {fault : ShapeFault} (h : t.Misfits v fault) :
    t.walk leaf v = Walk.ofExcept (.error (.shape fault t.text v)) := by
  have hl := layer_of_misfits h
  cases t with
  | elementary type => cases h
  | array element length | tuple components =>
    rw [walk, map_eq_error_iff.mp hl]
    rfl

/-- A walk comes to these places, to each of them before those inside. Nothing is inside of a value
that has not the shape of its type. -/
inductive Visits : Ty → Value → List (Ty × Value) → Prop
  | leaf (type : Elementary) (v : Value) : Visits (.elementary type) v [(.elementary type, v)]
  | inner {t : Ty} {v : Value} {inside : List (Ty × Value)} {parts : List (List (Ty × Value))}
      (h : t.Opens v inside)
      (each : List.Forall₂ (fun place part => Visits place.1 place.2 part) inside parts) :
      Visits t v ((t, v) :: parts.flatten)
  | misfit {t : Ty} {v : Value} {fault : ShapeFault} (h : t.Misfits v fault) : Visits t v [(t, v)]

theorem exists_visits (t : Ty) (v : Value) : ∃ places, t.Visits v places := by
  induction t, v using layer_induction with
  | step t v ih =>
    obtain ⟨type, rfl⟩ | ⟨inside, ho⟩ | ⟨fault, hm⟩ := t.layer_cases v
    · exact ⟨_, .leaf type v⟩
    · choose! part hpart using ih inside ho
      have heach := List.forall₂_map_right_iff.mpr (List.forall₂_same.mpr hpart)
      exact ⟨_, .inner ho heach⟩
    · exact ⟨_, .misfit hm⟩

mutual

/-- The second value has the results, from left to right, where the first one has its leaves, and
sequences around them. -/
inductive Replaces : Ty → Value → List Value → Value → Prop
  | leaf (type : Elementary) (v result : Value) : Replaces (.elementary type) v [result] result
  | inner {t : Ty} {v : Value} {places : List (Ty × Value)} {results items : List Value}
      (h : t.Opens v places) (each : ReplacesEach places results items) :
      Replaces t v results (.arr items)

inductive ReplacesEach : List (Ty × Value) → List Value → List Value → Prop
  | nil : ReplacesEach [] [] []
  | cons {t : Ty} {v w : Value} {places : List (Ty × Value)} {first results items : List Value}
      (h : Replaces t v first w) (rest : ReplacesEach places results items) :
      ReplacesEach ((t, v) :: places) (first ++ results) (w :: items)

end

end Ty

namespace Walk

variable {σ : Type} {leaf : Elementary → Value → Walk σ Value}

/-- The transform is called for each leaf of these places, in their order, and for nothing else; no
shape is wrong, and these are the results of the calls. -/
inductive Passes (leaf : Elementary → Value → Walk σ Value) :
    List (Ty × Value) → List Value → σ → σ → Prop
  | nil (s : σ) : Passes leaf [] [] s s
  | call {type : Elementary} {v w : Value} {places : List (Ty × Value)} {results : List Value}
      {s s₁ s' : σ} (h : (leaf type v).run s = .ok w s₁) (rest : Passes leaf places results s₁ s') :
      Passes leaf ((.elementary type, v) :: places) (w :: results) s s'
  | check {t : Ty} {v : Value} {inside places : List (Ty × Value)} {results : List Value}
      {s s' : σ} (h : t.Opens v inside) (rest : Passes leaf places results s s') :
      Passes leaf ((t, v) :: places) results s s'

/-- A walk ends at a place where the transform fails, or where the shape is wrong. -/
inductive Stops (leaf : Elementary → Value → Walk σ Value) : Ty × Value → σ → Error → σ → Prop
  | call {type : Elementary} {v : Value} {s s' : σ} {e : Error}
      (h : (leaf type v).run s = .error e s') : Stops leaf (.elementary type, v) s e s'
  | check {t : Ty} {v : Value} {fault : ShapeFault} {s : σ} (h : t.Misfits v fault) :
      Stops leaf (t, v) s (.shape fault t.text v) s

theorem Passes.append {places more : List (Ty × Value)} {results others : List Value}
    {s s₁ s' : σ} (h : Passes leaf places results s s₁) (hm : Passes leaf more others s₁ s') :
    Passes leaf (places ++ more) (results ++ others) s s' := by
  induction h with
  | nil => exact hm
  | call h _ ih => exact .call h (ih hm)
  | check h _ ih => exact .check h (ih hm)

/-- What is done at one place, be it reached or not. -/
def visit (leaf : Elementary → Value → Walk σ Value) (place : Ty × Value) : Walk σ Unit := do
  match ← ofExcept (place.1.layer place.2) with
  | .leaf type => (fun _ => ()) <$> leaf type place.2
  | .inner _ => return ()

theorem visit_leaf (type : Elementary) (v : Value) :
    visit leaf (.elementary type, v) = (fun _ => ()) <$> leaf type v := rfl

theorem visit_of_opens {t : Ty} {v : Value} {inside : List (Ty × Value)} (h : t.Opens v inside) :
    visit leaf (t, v) = pure () := by
  rw [visit, Ty.layer_eq_inner_iff.mpr h]
  rfl

theorem visit_of_misfits {t : Ty} {v : Value} {fault : ShapeFault} (h : t.Misfits v fault) :
    visit leaf (t, v) = ofExcept (.error (.shape fault t.text v)) := by
  rw [visit, Ty.layer_of_misfits h]
  rfl

theorem run_visit_eq_error_iff {place : Ty × Value} {s s' : σ} {e : Error} :
    (visit leaf place).run s = .error e s' ↔ Stops leaf place s e s' := by
  obtain ⟨t, v⟩ := place
  constructor
  · intro h
    obtain ⟨type, rfl⟩ | ⟨inside, ho⟩ | ⟨fault, hm⟩ := t.layer_cases v
    · rw [visit_leaf, run_map_eq_error_iff] at h
      exact .call h
    · rw [visit_of_opens ho] at h
      cases h
    · rw [visit_of_misfits hm, run_ofExcept_error] at h
      cases h
      exact .check hm
  · rintro (h | h)
    · rw [visit_leaf, run_map_eq_error_iff, h]
    · rw [visit_of_misfits h, run_ofExcept_error]

theorem run_visits_eq_ok_iff {places : List (Ty × Value)} {s s' : σ} :
    (forM places (visit leaf)).run s = .ok () s' ↔
      ∃ results, Passes leaf places results s s' := by
  induction places generalizing s with
  | nil =>
    constructor
    · intro h
      cases h
      exact ⟨[], .nil _⟩
    · rintro ⟨results, h⟩
      cases h
      rfl
  | cons place places ih =>
    obtain ⟨t, v⟩ := place
    rw [List.forM_cons, run_bind_eq_ok_iff]
    constructor
    · rintro ⟨⟨⟩, s₁, hv, hrest⟩
      obtain ⟨results, hp⟩ := ih.mp hrest
      obtain ⟨type, rfl⟩ | ⟨inside, ho⟩ | ⟨fault, hm⟩ := t.layer_cases v
      · rw [visit_leaf, run_map_eq_ok_iff] at hv
        obtain ⟨w, hw, -⟩ := hv
        exact ⟨w :: results, .call hw hp⟩
      · rw [visit_of_opens ho] at hv
        cases hv
        exact ⟨results, .check ho hp⟩
      · rw [visit_of_misfits hm] at hv
        cases hv
    · rintro ⟨results, h⟩
      cases h with
      | call h rest =>
        exact ⟨(), _, by rw [visit_leaf, run_map_of_ok h], ih.mpr ⟨_, rest⟩⟩
      | check h rest =>
        exact ⟨(), s, by rw [visit_of_opens h]; rfl, ih.mpr ⟨_, rest⟩⟩

/-- A walk does at its places, one after the other, what is done at each. -/
theorem discard_walk {t : Ty} {v : Value} {places : List (Ty × Value)} (h : t.Visits v places) :
    (fun _ => ()) <$> t.walk leaf v = forM places (visit leaf) := by
  induction t, v using Ty.layer_induction generalizing places with
  | step t v ih =>
    cases h with
    | leaf type =>
      rw [List.forM_cons, List.forM_nil, visit_leaf]
      exact bind_pure_unit.symm
    | inner ho each =>
      have hparts := (List.forall₂_and_left _ _).mpr ⟨ih _ ho, each⟩
      rw [Ty.walk_of_opens ho, Functor.map_map, discard_mapM, List.forM_cons, visit_of_opens ho,
        pure_bind]
      exact forM_flatten (hparts.imp fun place part ⟨hwalk, hp⟩ => hwalk hp)
    | misfit hm =>
      rw [Ty.walk_of_misfits hm, List.forM_cons, List.forM_nil, visit_of_misfits hm]
      rfl

theorem passes_each {inside : List (Ty × Value)} {parts : List (List (Ty × Value))}
    (hwalk : List.Forall₂ (fun place part => ∀ w s s',
      (place.1.walk leaf place.2).run s = .ok w s' → ∃ results,
        Passes leaf part results s s' ∧ place.1.Replaces place.2 results w) inside parts)
    {items : List Value} {s s' : σ}
    (h : (inside.mapM fun place : Ty × Value => place.1.walk leaf place.2).run s = .ok items s') :
    ∃ results, Passes leaf parts.flatten results s s' ∧ Ty.ReplacesEach inside results items := by
  induction hwalk generalizing items s with
  | nil =>
    cases h
    exact ⟨[], .nil _, .nil⟩
  | cons hfirst _ ih =>
    rw [List.mapM_cons] at h
    obtain ⟨w, s₁, hw, hrest⟩ := run_bind_eq_ok_iff.mp h
    obtain ⟨items, s₂, hitems, hlast⟩ := run_bind_eq_ok_iff.mp hrest
    cases hlast
    obtain ⟨first, hp, hr⟩ := hfirst w s s₁ hw
    obtain ⟨results, hps, hrs⟩ := ih hitems
    exact ⟨first ++ results, hp.append hps, .cons hr hrs⟩

/-- A walk that returns has passed all of its places, and the results stand where the leaves did. -/
theorem passes_of_run_walk {t : Ty} {v w : Value} {places : List (Ty × Value)} {s s' : σ}
    (hv : t.Visits v places) (h : (t.walk leaf v).run s = .ok w s') :
    ∃ results, Passes leaf places results s s' ∧ t.Replaces v results w := by
  induction t, v using Ty.layer_induction generalizing places w s s' with
  | step t v ih =>
    cases hv with
    | leaf type => exact ⟨[w], .call h (.nil s'), .leaf type v w⟩
    | inner ho each =>
      rw [Ty.walk_of_opens ho, run_map_eq_ok_iff] at h
      obtain ⟨items, hitems, rfl⟩ := h
      have hparts := (List.forall₂_and_left _ _).mpr ⟨ih _ ho, each⟩
      obtain ⟨results, hp, hr⟩ :=
        passes_each (hparts.imp fun place part ⟨hwalk, hp⟩ w s s' => hwalk hp) hitems
      exact ⟨results, .check ho hp, .inner ho hr⟩
    | misfit hm =>
      rw [Ty.walk_of_misfits hm] at h
      cases h

end Walk

/-- A value fits a type if and only if every walk along the type returns whose transform does not
fail. -/
theorem Ty.exists_run_walk_iff_fits {σ : Type} {leaf : Elementary → Value → Walk σ Value}
    (hl : Walk.Unfailing leaf) (t : Ty) (v : Value) (s : σ) :
    (∃ w s', (t.walk leaf v).run s = .ok w s') ↔ t.Fits v := by
  rw [← exists_plan_iff]
  cases hp : t.plan v with
  | ok p =>
    obtain ⟨results, s', hr⟩ := Walk.run_mapM_of_ok (fun l => hl l.1 l.2) p.leaves s
    exact iff_of_true ⟨_, s', by rw [walk_eq_of_plan hp, run_map_of_ok hr]⟩ ⟨p, rfl⟩
  | error e =>
    obtain ⟨e', s', hw, -⟩ := run_walk_of_plan_error leaf hp s
    rw [hw]
    exact iff_of_false nofun nofun

/-- A walk calls the transform once for each leaf, from left to right, and puts the results in place
of the leaves; it ends at the first place where the shape is wrong or the transform fails, with the
calls for the leaves before it made and no others. -/
theorem walk_exact {σ : Type} (leaf : Elementary → Value → Walk σ Value) (t : Ty) (v : Value)
    (s : σ) :
    (Walk.Unfailing leaf → ((∃ w s', (t.walk leaf v).run s = .ok w s') ↔ t.Fits v)) ∧
    (∃ places, t.Visits v places) ∧
    ∀ places, t.Visits v places →
      (∀ w s', (t.walk leaf v).run s = .ok w s' →
        ∃ results, Walk.Passes leaf places results s s' ∧ t.Replaces v results w) ∧
      (∀ s', (∃ w, (t.walk leaf v).run s = .ok w s') ↔
        ∃ results, Walk.Passes leaf places results s s') ∧
      ∀ e s', (t.walk leaf v).run s = .error e s' ↔
        ∃ before place after results s₁, places = before ++ place :: after ∧
          Walk.Passes leaf before results s s₁ ∧ Walk.Stops leaf place s₁ e s' := by
  refine ⟨fun hl => Ty.exists_run_walk_iff_fits hl t v s, t.exists_visits v, fun places hv => ?_⟩
  refine ⟨fun w s' h => Walk.passes_of_run_walk hv h, fun s' => ?_, fun e s' => ?_⟩
  · rw [← Walk.run_visits_eq_ok_iff, ← Walk.discard_walk hv, run_map_eq_ok_iff]
    exact exists_congr fun w => (and_iff_left rfl).symm
  · rw [← run_map_eq_error_iff, Walk.discard_walk hv, run_forM_eq_error_iff]
    simp only [Walk.run_visits_eq_ok_iff, Walk.run_visit_eq_error_iff]
    constructor
    · rintro ⟨before, place, after, s₁, h, ⟨results, hp⟩, hs⟩
      exact ⟨before, place, after, results, s₁, h, hp, hs⟩
    · rintro ⟨before, place, after, results, s₁, h, hp, hs⟩
      exact ⟨before, place, after, s₁, h, ⟨results, hp⟩, hs⟩

/-- The second of three pairs has no sequence where it should: the walk has called the transform for
the whole first pair by then, and for what stands before. -/
theorem walk_exact_misfit :
    let texts : Ty := .array (.elementary .string) (some 1)
    let pair : Ty := .tuple [⟨some ⟨"a", by decide⟩, none, .elementary .bool⟩,
      ⟨some ⟨"b", by decide⟩, none, texts⟩]
    let keyed : Value := .obj [("a", .bool true), ("b", .arr [.str "x"]), ("c", .null)]
    Walk.Unfailing Walk.noting ∧
      (Ty.array pair none).Fits (.arr [keyed]) ∧
      ((Ty.array pair none).walk Walk.noting (.arr [keyed, .arr [.int 1, .null], keyed])).run [] =
        .error (.shape .notArray "string[1]" .null)
          [(.bool, .bool true), (.string, .str "x"), (.bool, .int 1)] := by
  intro texts pair keyed
  have hl : Walk.Unfailing Walk.noting := fun type v s => ⟨v, s ++ [(type, v)], rfl⟩
  have hkeyed : pair.Opens keyed [(.elementary .bool, .bool true), (texts, .arr [.str "x"])] :=
    @Ty.Opens.record _ _ [.bool true, .arr [.str "x"]]
      (.cons ⟨_, rfl, rfl⟩ (.cons ⟨_, rfl, rfl⟩ .nil))
  have htexts : texts.Opens (.arr [.str "x"]) [(.elementary .string, .str "x")] :=
    .array fun _ hn => Option.some.inj hn ▸ rfl
  have hmisfit : texts.Misfits .null .notArray := .notArray nofun
  have hfirst : pair.Visits keyed _ :=
    .inner hkeyed
      (.cons (.leaf .bool _) (.cons (.inner htexts (.cons (.leaf .string _) .nil)) .nil))
  have hsecond : pair.Visits (.arr [.int 1, .null]) _ :=
    .inner (.tuple rfl) (.cons (.leaf .bool _) (.cons (.misfit hmisfit) .nil))
  have hvisits : (Ty.array pair none).Visits (.arr [keyed, .arr [.int 1, .null], keyed]) _ :=
    .inner (.array nofun) (.cons hfirst (.cons hsecond (.cons hfirst .nil)))
  have hpasses : Walk.Passes Walk.noting
      [(.array pair none, .arr [keyed, .arr [.int 1, .null], keyed]), (pair, keyed),
        (.elementary .bool, .bool true), (texts, .arr [.str "x"]), (.elementary .string, .str "x"),
        (pair, .arr [.int 1, .null]), (.elementary .bool, .int 1)]
      [.bool true, .str "x", .int 1] []
      [(.bool, .bool true), (.string, .str "x"), (.bool, .int 1)] :=
    .check (.array nofun) <| .check hkeyed <| .call rfl <| .check htexts <| .call rfl <|
      .check (.tuple rfl) <| .call rfl <| .nil _
  exact ⟨hl, ((walk_exact Walk.noting (.array pair none) _ []).1 hl).mp ⟨_, _, rfl⟩,
    (((walk_exact Walk.noting (.array pair none) _ []).2.2 _ hvisits).2.2 _ _).mpr
      ⟨_, (texts, .null), _, _, _, rfl, hpasses, .check hmisfit⟩⟩

end ContractAbi
