import ContractAbi.Json.Source
import Mathlib.Data.List.Nodup

/-!
The members of an object as the fields of a record. What a record finds at a key is not changed by
a member that stands at another.
-/

namespace ContractAbi

theorem Json.toSourceMembers_eq (members : List (String × Json)) :
    toSourceMembers members = members.map fun m => (some m.1, m.2.toSource) := by
  induction members with
  | nil => rfl
  | cons m members ih => rw [toSourceMembers, ih, List.map_cons]

namespace Json.Source

variable {keys : List String} {key other : String} {s : Source} {α : Type}
  {read : Source → Option α} {before after members : List (Option String × Source)}
  {fields : List (String × Source)}

/-- The members that a record looks at. -/
def known (keys : List String) (members : List (Option String × Source)) :
    List (String × Source) :=
  members.filterMap fun m => m.1.bind fun k => if keys.contains k then some (k, m.2) else none

theorem known_append : known keys (before ++ after) = known keys before ++ known keys after :=
  List.filterMap_append

theorem known_cons : known keys ((some key, s) :: members) =
    if keys.contains key then (key, s) :: known keys members else known keys members := by
  rw [known, List.filterMap_cons, Option.bind_some]
  cases keys.contains key <;> rfl

theorem mem_of_mem_known {m : String × Source} (h : m ∈ known keys members) :
    (some m.1, m.2) ∈ members := by
  obtain ⟨⟨k, s⟩, hm, hk⟩ := List.mem_filterMap.mp h
  obtain ⟨k, rfl, hk⟩ := Option.bind_eq_some_iff.mp hk
  obtain ⟨-, hk⟩ := Option.ite_none_right_eq_some.mp hk
  exact Option.some.inj hk ▸ hm

theorem knownMembers?_eq_some_iff :
    knownMembers? keys members = some fields ↔
      known keys members = fields ∧ (fields.map Prod.fst).Nodup ∧ ∀ m ∈ members, m.1.isSome := by
  induction members generalizing fields with
  | nil =>
    rw [knownMembers?, Option.some_inj]
    constructor
    · rintro rfl
      exact ⟨rfl, List.nodup_nil, nofun⟩
    · exact fun h => h.1
  | cons m members ih =>
    obtain ⟨_ | k, s⟩ := m
    · simp [knownMembers?]
    rw [knownMembers?, known_cons, List.forall_mem_cons]
    simp only [Option.bind_eq_bind, Option.bind_eq_some_iff, ih]
    by_cases hk : keys.contains k = true
    · simp only [if_pos hk]
      constructor
      · rintro ⟨more, ⟨rfl, hn, hs⟩, h⟩
        obtain ⟨hmem, h⟩ := Option.ite_none_left_eq_some.mp h
        cases h
        exact ⟨rfl, List.nodup_cons.mpr ⟨by simpa using hmem, hn⟩, rfl, hs⟩
      · rintro ⟨rfl, hn, -, hs⟩
        obtain ⟨hmem, hn⟩ := List.nodup_cons.mp hn
        exact ⟨_, ⟨rfl, hn, hs⟩, if_neg (by simpa using hmem)⟩
    · simp only [if_neg hk]
      constructor
      · rintro ⟨_, ⟨rfl, hn, hs⟩, h⟩
        cases h
        exact ⟨rfl, hn, rfl, hs⟩
      · rintro ⟨rfl, hn, -, hs⟩
        exact ⟨_, ⟨rfl, hn, hs⟩, rfl⟩

/-- A member under a key of its own changes nothing about the others. -/
theorem knownMembers?_insert (hkey : keys.contains key = true)
    (h : ∀ m ∈ before ++ after, m.1 ≠ some key) :
    knownMembers? keys (before ++ (some key, s) :: after) =
      (knownMembers? keys (before ++ after)).map
        fun _ => known keys before ++ (key, s) :: known keys after := by
  have hnew : key ∉ (known keys (before ++ after)).map Prod.fst := by
    intro hmem
    obtain ⟨m, hm, rfl⟩ := List.mem_map.mp hmem
    exact h _ (mem_of_mem_known hm) rfl
  ext fields
  rw [Option.map_eq_some_iff, knownMembers?_eq_some_iff]
  simp only [knownMembers?_eq_some_iff, known_append, known_cons, if_pos hkey] at hnew ⊢
  constructor
  · rintro ⟨rfl, hn, hs⟩
    rw [List.map_append, List.map_cons, List.nodup_middle, List.nodup_cons, ← List.map_append] at hn
    refine ⟨_, ⟨rfl, hn.2, fun m hm => hs m ?_⟩, rfl⟩
    simp only [List.mem_append, List.mem_cons] at hm ⊢
    tauto
  · rintro ⟨_, ⟨rfl, hn, hs⟩, rfl⟩
    refine ⟨rfl, ?_, ?_⟩
    · rw [List.map_append, List.map_cons, List.nodup_middle, List.nodup_cons, ← List.map_append]
      exact ⟨hnew, hn⟩
    · simp only [List.forall_mem_append, List.forall_mem_cons] at hs ⊢
      exact ⟨hs.1, rfl, hs.2⟩

theorem lookup_known (h : ∀ m ∈ members, m.1 ≠ some key) :
    (known keys members).lookup key = none := by
  rw [List.lookup_eq_none_iff]
  intro m hm
  rw [bne_iff_ne]
  rintro rfl
  exact h _ (mem_of_mem_known hm) rfl

/-- A field is found whatever stands at other keys. -/
theorem optional?_insert (h : other ≠ key) (xs ys : List (String × Source)) :
    optional? read other (xs ++ (key, s) :: ys) = optional? read other (xs ++ ys) := by
  rw [optional?, optional?, List.lookup_append, List.lookup_append, List.lookup_cons,
    beq_false_of_ne h]

/-- A field is read off the first member that is the field. -/
theorem optional?_here {xs : List (String × Source)} (h : xs.lookup key = none)
    (ys : List (String × Source)) :
    optional? read key (xs ++ (key, s) :: ys) = optional? read key [(key, s)] := by
  rw [optional?, optional?, List.lookup_append, h, Option.none_or, List.lookup_cons_self,
    List.lookup_cons_self]

theorem optional?_of_lookup (h : fields.lookup key = none) :
    optional? read key fields = some none := by
  rw [optional?, h]

theorem nestingMembers_insert {m : Option String × Source} (h : m.2.nesting = 0)
    (before after : List (Option String × Source)) :
    nestingMembers (before ++ m :: after) = nestingMembers (before ++ after) := by
  induction before with
  | nil => rw [List.nil_append, nestingMembers, h, Nat.zero_max, List.nil_append]
  | cons b before ih => rw [List.cons_append, nestingMembers, ih, List.cons_append, nestingMembers]

end Json.Source

end ContractAbi
