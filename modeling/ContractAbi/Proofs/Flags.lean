import ContractAbi.Proofs.Document

/-!
Which parameters have an indexed flag. The readers give one to inputs of events and to nothing else,
and the constructors keep it that way for the parameters themselves; they do not look into tuples,
so what stands inside those is as it was before.
-/

namespace ContractAbi

theorem Param.allUnflagged_iff {ps : List Param} :
    AllUnflagged ps ↔ ∀ p ∈ ps, p.indexed = none ∧ p.type.Unflagged := by
  induction ps with
  | nil => simp [AllUnflagged]
  | cons p ps ih =>
    cases p
    simp [AllUnflagged, ih, and_assoc]

theorem Ty.unflagged_foldl {type : Ty} (h : type.Unflagged) (lengths : List (Option UInt64)) :
    (lengths.foldl array type).Unflagged := by
  induction lengths generalizing type with
  | nil => exact h
  | cons n lengths ih => exact ih h

namespace Reads

variable {c c' : Cursor} {p : Param} {ps : List Param}

theorem groupOf_forall {one : Reader Param} {P : Param → Prop}
    (h : ∀ {d q d'}, Reads one d q d' → P q) (hr : Reads (Reader.groupOf one) c ps c') :
    ∀ p ∈ ps, P p := by
  obtain ⟨cs, d, -, hm⟩ := bind_iff.mp hr
  obtain ⟨hf, -⟩ := mapM_within_iff.mp hm
  clear hr hm
  intro p hp
  induction hf with
  | nil => cases hp
  | cons hq _ ih =>
    obtain rfl | hp := List.mem_cons.mp hp
    · obtain ⟨d', hq⟩ := hq
      exact h hq
    · exact ih hp

theorem headWith_unflagged {components : Reader (List Param)}
    (h : ∀ {d qs d'}, Reads components d qs d' → Param.AllUnflagged qs) {type : Ty}
    (hr : Reads (Reader.headWith components) c type c') : type.Unflagged := by
  obtain ⟨worded, d, -, hr⟩ := bind_iff.mp hr
  rw [get_bind_iff] at hr
  split at hr
  · obtain ⟨qs, hqs, rfl⟩ := map_iff.mp hr
    exact h hqs
  · obtain ⟨word, rest, e, -, -, rfl, -⟩ := elementaryType_iff.mp hr
    trivial

/-- A parameter has a flag if it may have one, and its type has none inside. -/
theorem parameterWithin_flags {n : Nat} {indexable : Bool}
    (hr : Reads (Reader.parameterWithin n indexable) c p c') :
    p.indexed.isSome = indexable ∧ p.type.Unflagged := by
  induction n generalizing indexable c p c' with
  | zero => exact absurd hr fail_iff
  | succ n ih =>
    obtain ⟨head, d, hhead, hr⟩ := bind_iff.mp hr
    obtain ⟨lengths, d, -, hr⟩ := bind_iff.mp hr
    obtain ⟨flag, d, hflag, hr⟩ := bind_iff.mp hr
    obtain ⟨name, d, -, hr⟩ := bind_iff.mp hr
    obtain ⟨-, d, -, hr⟩ := bind_iff.mp hr
    obtain ⟨rfl, -⟩ := pure_iff.mp hr
    obtain ⟨words, rest, -, -, -, -, rfl, -⟩ := indexedFlag_iff.mp hflag
    have hgroup {d qs d'} (hqs : Reads (Reader.groupOf (Reader.parameterWithin n false)) d qs d') :
        Param.AllUnflagged qs := by
      rw [Param.allUnflagged_iff]
      refine groupOf_forall ?_ hqs
      intro d q d' hq
      obtain ⟨hi, hu⟩ := ih hq
      exact ⟨by simpa using hi, hu⟩
    refine ⟨?_, Ty.unflagged_foldl (headWith_unflagged hgroup hhead) lengths⟩
    cases indexable <;> rfl

theorem parameter_flags {indexable : Bool} (hr : Reads (Reader.parameter indexable) c p c') :
    p.indexed.isSome = indexable ∧ p.type.Unflagged := by
  rw [Reader.parameter, get_bind_iff] at hr
  exact parameterWithin_flags hr

theorem parameters_unflagged {indexable : Bool}
    (hr : Reads (Reader.parameters indexable) c ps c') : ∀ p ∈ ps, p.type.Unflagged :=
  groupOf_forall (fun hq => (parameter_flags hq).2) hr

theorem receiveAfter_madeOf {offset : Option Nat} {inputs : List Param} {mutability : Mutability}
    {d : Declaration} (hr : Reads (Reader.receiveAfter offset inputs mutability) c d c') :
    Declaration.MadeOf [] d := by
  obtain ⟨-, -, rfl, -⟩ := receiveAfter_iff.mp hr
  exact .receive

theorem fallbackAfter_madeOf {offset : Option Nat} {inputs : List Param} {mutability : Mutability}
    {d : Declaration} (hr : Reads (Reader.fallbackAfter offset inputs mutability) c d c') :
    Declaration.MadeOf [] d := by
  obtain ⟨last, heq, hlast⟩ := fallbackAfter_eq offset inputs mutability
  have hmade {c : Cursor} (hr : Reads last c d c') : Declaration.MadeOf [] d := by
    obtain ⟨payable, -, rfl, -⟩ := hlast.mp hr
    exact .fallback payable
  rw [heq] at hr
  dsimp only at hr
  split at hr
  · exact absurd hr fail_bind_iff
  · obtain ⟨stated, _, _, hr⟩ := bind_iff.mp hr
    split at hr
    · obtain ⟨outputs, _, _, hr⟩ := bind_iff.mp hr
      split at hr
      · exact absurd hr fail_bind_iff
      · exact hmade hr
    · exact hmade hr

/-- Whatever tokens a declaration is read from, it is made of parameters with no flags inside. -/
theorem exists_madeOf {kind : Declaration.Kind} {d : Declaration}
    (hr : Reads (Reader.declarationOf kind) c d c') :
    ∃ ps, Declaration.MadeOf ps d ∧ ∀ p ∈ ps, p.type.Unflagged := by
  cases kind with
  | constructor =>
    obtain ⟨_, _, _, hr⟩ := bind_iff.mp hr
    obtain ⟨inputs, _, hi, hr⟩ := bind_iff.mp hr
    obtain ⟨_, _, _, hr⟩ := bind_iff.mp hr
    obtain ⟨gas, _, _, hr⟩ := bind_iff.mp hr
    obtain ⟨_, _, _, hr⟩ := bind_iff.mp hr
    exact ⟨inputs, .constructor (liftExcept_iff.mp hr).1, parameters_unflagged hi⟩
  | error =>
    obtain ⟨name, _, _, hr⟩ := bind_iff.mp hr
    obtain ⟨inputs, _, hi, hr⟩ := bind_iff.mp hr
    obtain ⟨_, _, _, hr⟩ := bind_iff.mp hr
    exact ⟨inputs, .error (liftExcept_iff.mp hr).1, parameters_unflagged hi⟩
  | struct =>
    obtain ⟨name, _, _, hr⟩ := bind_iff.mp hr
    obtain ⟨inputs, _, hi, hr⟩ := bind_iff.mp hr
    obtain ⟨_, _, _, hr⟩ := bind_iff.mp hr
    exact ⟨inputs, .struct (liftExcept_iff.mp hr).1, parameters_unflagged hi⟩
  | event =>
    obtain ⟨name, _, _, hr⟩ := bind_iff.mp hr
    obtain ⟨inputs, _, hi, hr⟩ := bind_iff.mp hr
    obtain ⟨anonymous, _, _, hr⟩ := bind_iff.mp hr
    obtain ⟨_, _, _, hr⟩ := bind_iff.mp hr
    exact ⟨inputs, .event (liftExcept_iff.mp hr).1, parameters_unflagged hi⟩
  | function =>
    obtain ⟨name, _, _, hr⟩ := bind_iff.mp hr
    obtain ⟨inputs, _, hi, hr⟩ := bind_iff.mp hr
    obtain ⟨mutability, _, _, hr⟩ := bind_iff.mp hr
    obtain ⟨stated, _, _, hr⟩ := bind_iff.mp hr
    have hmade {outputs : List Param} {c : Cursor} (ho : ∀ p ∈ outputs, p.type.Unflagged)
        (hr : Reads (do
          let gas ← Reader.gas
          Reader.endOfInput
          Reader.liftExcept (Declaration.mkFunction name mutability inputs outputs gas)) c d c') :
        ∃ ps, Declaration.MadeOf ps d ∧ ∀ p ∈ ps, p.type.Unflagged := by
      obtain ⟨gas, _, _, hr⟩ := bind_iff.mp hr
      obtain ⟨_, _, _, hr⟩ := bind_iff.mp hr
      exact ⟨inputs ++ outputs, .function (liftExcept_iff.mp hr).1,
        List.forall_mem_append.mpr ⟨parameters_unflagged hi, ho⟩⟩
    dsimp only at hr
    split at hr
    · obtain ⟨outputs, _, ho, hr⟩ := bind_iff.mp hr
      exact hmade (parameters_unflagged ho) hr
    · exact hmade (by simp) hr
  | fallback =>
    obtain ⟨t, _, _, hr⟩ := bind_iff.mp hr
    obtain ⟨word, _, _, hr⟩ := bind_iff.mp hr
    obtain ⟨inputs, _, _, hr⟩ := bind_iff.mp hr
    obtain ⟨mutability, _, _, hr⟩ := bind_iff.mp hr
    have hend {r : Reader Declaration} {c : Cursor}
        (hr : Reads (do
          let d ← r
          Reader.endOfInput
          pure d) c d c') : ∃ c', Reads r c d c' := by
      obtain ⟨d', c', hd, hr⟩ := bind_iff.mp hr
      obtain ⟨_, _, _, hr⟩ := bind_iff.mp hr
      obtain ⟨rfl, -⟩ := pure_iff.mp hr
      exact ⟨c', hd⟩
    dsimp only at hr
    split at hr
    · obtain ⟨c', hr⟩ := hend hr
      exact ⟨[], receiveAfter_madeOf hr, by simp⟩
    · obtain ⟨c', hr⟩ := hend hr
      exact ⟨[], fallbackAfter_madeOf hr, by simp⟩

end Reads

theorem Param.unflagged_of_ofSignature {indexable : Bool} {text : String} {p : Param}
    (h : ofSignature indexable text = .ok p) :
    p.indexed.isSome = indexable ∧ p.type.Unflagged := by
  obtain ⟨tokens, -, c', hr⟩ := Reader.onText_eq_ok.mp h
  exact Reads.parameter_flags hr

namespace Ty

variable {base word : String} {type : Ty}

theorem unflagged_of_ofBase {components : Option (List Param)}
    (hc : ∀ ps, components = some ps → Param.AllUnflagged ps)
    (h : ofBase base components = .ok type) : type.Unflagged := by
  unfold ofBase at h
  split at h
  · split at h
    next ps =>
      obtain rfl := Except.ok.inj h
      exact hc ps rfl
    next =>
      split at h
      · cases h
      · obtain ⟨p, hp, rfl⟩ := map_eq_ok_iff.mp h
        exact (Param.unflagged_of_ofSignature hp).2
  · obtain ⟨p, hp, rfl⟩ := map_eq_ok_iff.mp h
    obtain ⟨e, -, rfl⟩ := Param.elementary_eq_ok.mp hp
    trivial

theorem unflagged_of_headOf {components : Option (Except Error (List Param))}
    (hc : ∀ ps, components = some (.ok ps) → Param.AllUnflagged ps)
    (h : headOf base components = .ok type) : type.Unflagged := by
  unfold headOf at h
  dsimp only at h
  split at h
  · obtain ⟨read, hread, h⟩ := bind_eq_ok_iff.mp h
    apply unflagged_of_ofBase _ h
    rintro ps rfl
    cases components with
    | none => cases hread
    | some components =>
      cases components with
      | error e => cases hread
      | ok qs =>
        obtain rfl := Option.some.inj (Except.ok.inj hread)
        exact hc _ rfl
  · obtain ⟨read, hread, h⟩ := bind_eq_ok_iff.mp h
    obtain rfl := Except.ok.inj hread
    refine unflagged_of_ofBase ?_ h
    intro ps hps
    cases hps

theorem unflagged_of_ofText {components : Option (Except Error (List Param))}
    (hc : ∀ ps, components = some (.ok ps) → Param.AllUnflagged ps)
    (h : ofText word components = .ok type) : type.Unflagged := by
  rw [ofText_eq] at h
  obtain ⟨split, -, h⟩ := bind_eq_ok_iff.mp h
  obtain ⟨head, hhead, rfl⟩ := map_eq_ok_iff.mp h
  exact unflagged_foldl (unflagged_of_headOf hc hhead) split.2

end Ty

namespace Param

theorem assemble_flags {indexable : Bool} {name : Option String} {indexed : Option Bool}
    {type : Except Error Ty} {p : Param} (h : assemble indexable name indexed type = .ok p) :
    p.indexed.isSome = indexable ∧ type = .ok p.type := by
  obtain ⟨type', htype, h⟩ := bind_eq_ok_iff.mp h
  obtain ⟨name', -, h⟩ := bind_eq_ok_iff.mp h
  obtain ⟨flag, hflag, h⟩ := bind_eq_ok_iff.mp h
  obtain rfl := Except.ok.inj h
  refine ⟨?_, htype⟩
  unfold flagOf at hflag
  split at hflag
  next hi =>
    obtain rfl := Except.ok.inj hflag
    exact hi.symm
  next hi =>
    split at hflag
    · cases hflag
    · obtain rfl := Except.ok.inj hflag
      simpa using hi

mutual

/-- An object gives its parameter a flag if it may have one, and none to the components. -/
theorem ofObject_flags {indexable : Bool} {p : Param} :
    (object : ParamObject) → ofObject indexable object = .ok p →
      p.indexed.isSome = indexable ∧ p.type.Unflagged
  | ⟨name, type, indexed, components⟩, h => by
    rw [ofObject] at h
    obtain ⟨hi, ht⟩ := assemble_flags h
    exact ⟨hi, Ty.unflagged_of_ofText (fun ps hps => ofComponents_unflagged components hps) ht⟩

theorem ofComponents_unflagged {ps : List Param} :
    (components : Option (List ParamObject)) → ofComponents components = some (.ok ps) →
      AllUnflagged ps
  | none, h => by cases h
  | some objects, h => by
    rw [ofComponents] at h
    exact ofObjects_unflagged objects (Option.some.inj h)

theorem ofObjects_unflagged {ps : List Param} :
    (objects : List ParamObject) → ofObjects objects = .ok ps → AllUnflagged ps
  | [], h => by
    obtain rfl := Except.ok.inj h
    trivial
  | object :: rest, h => by
    rw [ofObjects] at h
    obtain ⟨p, hp, h⟩ := bind_eq_ok_iff.mp h
    obtain ⟨qs, hqs, h⟩ := bind_eq_ok_iff.mp h
    obtain rfl := Except.ok.inj h
    obtain ⟨hi, hu⟩ := ofObject_flags object hp
    cases p
    exact ⟨by simpa using hi, hu, ofObjects_unflagged rest hqs⟩

end

end Param

namespace Declaration

/-- Inputs of an event have a flag. No other parameter has one, be it a component of a tuple, or in
a tuple inside of that, or an output. -/
structure OnlyInputsFlagged (d : Declaration) : Prop where
  inputs : ∀ p ∈ d.inputs, p.indexed.isSome = (d.kind == .event)
  outputs : ∀ p ∈ d.outputs, p.indexed.isSome = false
  inside : ∀ p ∈ d.inputs ++ d.outputs, p.type.Unflagged

variable {ps qs : List Param} {d : Declaration}

theorem forall_type_unindexed (h : unindexed ps = .ok qs) (P : Ty → Prop) :
    (∀ q ∈ qs, P q.type) ↔ ∀ p ∈ ps, P p.type := by
  rw [unindexed] at h
  split at h
  · cases h
  · obtain rfl := Except.ok.inj h
    exact List.forall_mem_map

theorem forall_type_flagged (ps : List Param) (P : Ty → Prop) :
    (∀ q ∈ flagged ps, P q.type) ↔ ∀ p ∈ ps, P p.type := List.forall_mem_map

/-- The constructors neither put flags inside of what they are given nor take them away. -/
theorem MadeOf.forall_type (h : MadeOf ps d) {P : Ty → Prop} (hbytes : P (.elementary .bytes)) :
    (∀ q ∈ d.inputs ++ d.outputs, P q.type) ↔ ∀ p ∈ ps, P p.type := by
  cases h with
  | constructor h =>
    obtain ⟨inputs, hi, h⟩ := bind_eq_ok_iff.mp h
    obtain rfl := Except.ok.inj h
    simpa [Declaration.inputs, Declaration.outputs] using forall_type_unindexed hi P
  | error h =>
    obtain ⟨inputs, hi, h⟩ := bind_eq_ok_iff.mp h
    obtain ⟨name, -, h⟩ := bind_eq_ok_iff.mp h
    obtain rfl := Except.ok.inj h
    simpa [Declaration.inputs, Declaration.outputs] using forall_type_unindexed hi P
  | event h =>
    obtain ⟨name, -, h⟩ := bind_eq_ok_iff.mp h
    obtain rfl := Except.ok.inj h
    simpa [Declaration.inputs, Declaration.outputs] using forall_type_flagged _ P
  | fallback payable => simpa [Declaration.inputs, Declaration.outputs, Param.ofType] using hbytes
  | receive => simp [Declaration.inputs, Declaration.outputs]
  | function h =>
    obtain ⟨inputs, hi, h⟩ := bind_eq_ok_iff.mp h
    obtain ⟨outputs, ho, h⟩ := bind_eq_ok_iff.mp h
    obtain ⟨name, -, h⟩ := bind_eq_ok_iff.mp h
    obtain rfl := Except.ok.inj h
    rw [List.forall_mem_append, List.forall_mem_append]
    exact and_congr (forall_type_unindexed hi P) (forall_type_unindexed ho P)
  | struct h =>
    obtain ⟨inputs, hi, h⟩ := bind_eq_ok_iff.mp h
    obtain ⟨name, -, h⟩ := bind_eq_ok_iff.mp h
    obtain rfl := Except.ok.inj h
    simpa [Declaration.inputs, Declaration.outputs] using forall_type_unindexed hi P

theorem MadeOf.onlyInputsFlagged_iff (h : MadeOf ps d) :
    d.OnlyInputsFlagged ↔ ∀ p ∈ ps, p.type.Unflagged := by
  rw [← h.forall_type trivial]
  obtain ⟨hi, ho⟩ := h.constructed.indexed
  exact ⟨OnlyInputsFlagged.inside, fun hu => ⟨hi, ho, hu⟩⟩

end Declaration

mutual

/-- Parameters that can be had from texts, tokens, objects, constructors, and declarations. If
`plain`, no tuple is made of parameters that have flags. -/
inductive Param.Obtained (plain : Bool) : Param → Prop where
  | read {indexable : Bool} {c c' : Cursor} {p : Param}
      (h : (Reader.parameter indexable).run c = .ok p c') : Param.Obtained plain p
  | object {indexable : Bool} {o : ParamObject} {p : Param}
      (h : Param.ofObject indexable o = .ok p) : Param.Obtained plain p
  | elementary {word : String} {p : Param} (h : Param.elementary word = .ok p) :
      Param.Obtained plain p
  | tuple {ps : List Param} (h : ∀ p ∈ ps, Param.Obtained plain p)
      (hp : plain = true → ∀ p ∈ ps, p.indexed = none) : Param.Obtained plain (.tuple ps)
  | array {p : Param} (h : Param.Obtained plain p) (length : Option UInt64) :
      Param.Obtained plain (p.array length)
  | withName {p q : Param} {name : String} (h : Param.Obtained plain p)
      (hq : p.withName name = .ok q) : Param.Obtained plain q
  | component {name : Option Identifier} {indexed : Option Bool} {ps : List Param} {p : Param}
      (h : Param.Obtained plain ⟨name, indexed, .tuple ps⟩) (hp : p ∈ ps) : Param.Obtained plain p
  | element {name : Option Identifier} {indexed : Option Bool} {type : Ty} {length : Option UInt64}
      (h : Param.Obtained plain ⟨name, indexed, .array type length⟩) :
      Param.Obtained plain (.ofType type)
  | declared {d : Declaration} {p : Param} (h : Declaration.Obtained plain d)
      (hp : p ∈ d.inputs ++ d.outputs) : Param.Obtained plain p

inductive Declaration.Obtained (plain : Bool) : Declaration → Prop where
  | read {kind : Declaration.Kind} {c c' : Cursor} {d : Declaration}
      (h : (Reader.declarationOf kind).run c = .ok d c') : Declaration.Obtained plain d
  | object {kind : Declaration.Kind} {o : DeclarationObject} {d : Declaration}
      (h : Declaration.ofObjectAs kind o = .ok d) : Declaration.Obtained plain d
  | made {ps : List Param} {d : Declaration} (h : Declaration.MadeOf ps d)
      (hp : ∀ p ∈ ps, Param.Obtained plain p) : Declaration.Obtained plain d

end

mutual

theorem Param.Obtained.unflagged {p : Param} : Param.Obtained true p → p.type.Unflagged
  | .read h => (Reads.parameter_flags h).2
  | .object h => (Param.ofObject_flags _ h).2
  | .elementary h => by
    obtain ⟨e, -, rfl⟩ := Param.elementary_eq_ok.mp h
    trivial
  | .tuple h hp =>
    Param.allUnflagged_iff.mpr fun p hm => ⟨hp rfl p hm, (h p hm).unflagged⟩
  | .array h _ => h.unflagged
  | .withName h hq => by
    obtain ⟨name, -, rfl⟩ := map_eq_ok_iff.mp hq
    exact h.unflagged
  | .component h hp => (Param.allUnflagged_iff.mp h.unflagged _ hp).2
  | .element h => h.unflagged
  | .declared h hp => h.inside _ hp

theorem Declaration.Obtained.inside {d : Declaration} :
    Declaration.Obtained true d → ∀ p ∈ d.inputs ++ d.outputs, p.type.Unflagged
  | .read h => by
    obtain ⟨ps, hm, hu⟩ := Reads.exists_madeOf h
    exact (hm.forall_type trivial).mpr hu
  | .object h => by
    obtain ⟨ps, hm, hread⟩ := Declaration.madeOf_of_ofObjectAs h
    refine (hm.forall_type trivial).mpr ?_
    intro p hp
    obtain ⟨indexable, object, ho⟩ := hread p hp
    exact (Param.ofObject_flags object ho).2
  | .made h hp => (h.forall_type trivial).mpr fun p hm => (hp p hm).unflagged

end

theorem Declaration.Obtained.constructed {plain : Bool} {d : Declaration}
    (h : Declaration.Obtained plain d) : d.Constructed := by
  cases h with
  | read h =>
    obtain ⟨ps, hm, -⟩ := Reads.exists_madeOf h
    exact hm.constructed
  | object h =>
    obtain ⟨ps, hm, -⟩ := madeOf_of_ofObjectAs h
    exact hm.constructed
  | made h => exact h.constructed

theorem Param.obtained_of_parse {indexable : Bool} {text : String} {p : Param}
    (h : parse indexable text = .ok p) (plain : Bool) : Param.Obtained plain p := by
  rw [parse] at h
  split at h
  · rw [ofJsonText] at h
    split at h
    · exact .object h
    · cases h
  · obtain ⟨tokens, -, c', hr⟩ := Reader.onText_eq_ok.mp h
    exact .read hr

theorem Declaration.obtained_of_ofObject {o : DeclarationObject} {d : Declaration}
    (h : ofObject o = .ok d) (plain : Bool) : Declaration.Obtained plain d := by
  obtain ⟨kind, h⟩ := exists_kind_of_ofObject h
  exact .object h

theorem Declaration.obtained_of_parse {text : String} {d : Declaration}
    (h : parse text = .ok d) (plain : Bool) : Declaration.Obtained plain d := by
  rw [parse] at h
  split at h
  · rw [ofJsonText] at h
    split at h
    · exact obtained_of_ofObject h plain
    · cases h
  · obtain ⟨tokens, -, c', hr⟩ := Reader.onText_eq_ok.mp h
    rw [Reader.declaration, Reads.get_bind_iff] at hr
    dsimp only at hr
    split at hr
    · exact .read hr
    · exact absurd hr Reads.throw_iff

theorem Declaration.obtained_of_ofJson {j : Json} {d : Declaration} (h : ofJson j = .ok d)
    (plain : Bool) : Declaration.Obtained plain d := by
  rw [ofJson] at h
  split at h
  · exact obtained_of_ofObject h plain
  · cases h

/-- Only inputs of events have flags in what is read, and in what is made of parameters none of
which was put into a tuple with a flag of its own. -/
theorem flags_only_at_inputs (d : Declaration) :
    (∀ text, Declaration.parse text = .ok d → d.OnlyInputsFlagged) ∧
    (∀ j, Declaration.ofJson j = .ok d → d.OnlyInputsFlagged) ∧
    (Declaration.Obtained true d → d.OnlyInputsFlagged) ∧
    ∀ ps, Declaration.MadeOf ps d → (d.OnlyInputsFlagged ↔ ∀ p ∈ ps, p.type.Unflagged) := by
  have hobtained (h : Declaration.Obtained true d) : d.OnlyInputsFlagged := by
    obtain ⟨hi, ho⟩ := h.constructed.indexed
    exact ⟨hi, ho, h.inside⟩
  exact ⟨fun _ h => hobtained (Declaration.obtained_of_parse h true),
    fun _ h => hobtained (Declaration.obtained_of_ofJson h true), hobtained,
    fun _ h => h.onlyInputsFlagged_iff⟩

theorem flags_only_at_inputs_nested :
    (Declaration.event ⟨"E", by decide⟩
      [⟨some ⟨"b", by decide⟩, some true,
        .tuple [⟨some ⟨"a", by decide⟩, none, .array (.elementary .bool) none⟩]⟩]
      false).OnlyInputsFlagged ∧
    (Declaration.event ⟨"E", by decide⟩
      [⟨none, some false, .tuple [⟨none, none, .elementary .bool⟩]⟩] true).OnlyInputsFlagged := by
  have hmake : Declaration.mkEvent "E" [.tuple [.ofType (.elementary .bool)]] true =
      .ok (.event ⟨"E", by decide⟩
        [⟨none, some false, .tuple [⟨none, none, .elementary .bool⟩]⟩] true) :=
    eq_ok_of_toOption (by decide +kernel)
  refine ⟨(flags_only_at_inputs _).1 "event E((bool[] a) indexed b)"
    (eq_ok_of_toOption (by decide +kernel)), ?_⟩
  apply ((flags_only_at_inputs _).2.2.2 _ (.event hmake)).mpr
  simp [Param.tuple, Param.ofType, Ty.Unflagged, Param.AllUnflagged]

/-- A tuple keeps the flags of what it is made of, and no constructor looks for them there. -/
theorem not_onlyInputsFlagged_of_tuple :
    ∃ p d, Param.parse true "uint256 a" = .ok p ∧
      Declaration.mkFunction "f" .nonpayable [.tuple [p]] [] none = .ok d ∧
      Declaration.Obtained false d ∧ ¬ d.OnlyInputsFlagged := by
  have hp : Param.parse true "uint256 a" =
      .ok ⟨some ⟨"a", by decide⟩, some false, .elementary (.uint 31)⟩ :=
    eq_ok_of_toOption (by decide +kernel)
  have hd : Declaration.mkFunction "f" .nonpayable
      ([.tuple [⟨some ⟨"a", by decide⟩, some false, .elementary (.uint 31)⟩]] ++ []) [] none =
      .ok (.function ⟨"f", by decide⟩ .nonpayable
        [.tuple [⟨some ⟨"a", by decide⟩, some false, .elementary (.uint 31)⟩]] [] none) :=
    eq_ok_of_toOption (by decide +kernel)
  refine ⟨_, _, hp, hd, .made (.function hd) ?_, ?_⟩
  · rw [List.append_nil, List.append_nil, List.forall_mem_singleton]
    refine .tuple (List.forall_mem_singleton.mpr (Param.obtained_of_parse hp false)) nofun
  · intro h
    have hinside := h.inside _ (List.mem_append_left _ (List.mem_singleton_self _))
    cases hinside.1

end ContractAbi
