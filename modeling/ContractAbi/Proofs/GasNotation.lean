import ContractAbi.Proofs.Gas
import ContractAbi.Proofs.JsonReader
import ContractAbi.Proofs.Members
import ContractAbi.Proofs.TupleDepth
import ContractAbi.Proofs.Flags

/-!
The gas of a declaration in JSON, and that every way in which a number can be stated for it comes
down to this number. Apart from its gas, an object is read as it is without the member.
-/

namespace ContractAbi

open Json (Source Literal)

namespace Json

/-- The literal is that of a whole number which a word can hold. -/
structure Literal.IsWord (l : Literal) (n : Nat) : Prop where
  negative : l.negative = false
  fraction : l.fraction = []
  exponent : l.exponent = none
  value : Nat.ofDigitChars 10 l.whole 0 = n
  lt : n < 2 ^ 64

/-- The literal is negative, has a fraction or an exponent, or is too large for a word. -/
def Literal.Unfit (l : Literal) : Prop :=
  l.negative = true ∨ l.fraction ≠ [] ∨ l.exponent.isSome ∨
    2 ^ 64 ≤ Nat.ofDigitChars 10 l.whole 0

namespace Literal

variable {l : Literal} {n : Nat} {x : Number}

theorem IsWord.number?_eq (h : l.IsWord n) : l.number? = some (.int n) := by
  obtain ⟨hn, hf, he, hv, hlt⟩ := h
  rw [number?, hn, hf, he, hv]
  exact if_pos hlt

theorem float?_ne_int {i : Int} : l.float? ≠ some (.int i) := by
  intro h
  obtain ⟨m, -, hm⟩ := Option.map_eq_some_iff.mp h
  cases hm

/-- What an unfit literal is read as, if as anything, is no word. -/
theorem Unfit.number?_ne (h : l.Unfit) (hn : n < 2 ^ 64) : l.number? ≠ some (.int n) := by
  rw [number?]
  split
  · exact float?_ne_int
  next hplain =>
    rw [Bool.or_eq_true, not_or] at hplain
    split
    · split
      · exact float?_ne_int
      next hsmall =>
        rw [not_or] at hsmall
        intro he
        have hneg := Number.int.inj (Option.some.inj he)
        omega
    next hnegative =>
      have hlarge : 2 ^ 64 ≤ Nat.ofDigitChars 10 l.whole 0 := by
        rcases h with h | h | h | h
        · exact absurd h hnegative
        · simp [h] at hplain
        · simp [h] at hplain
        · exact h
      refine (if_neg (Nat.not_lt.mpr hlarge)).trans_ne ?_
      exact float?_ne_int

end Literal

end Json

namespace DeclarationObject

/-- The JSON values that state a gas of `n`: a decimal or a hexadecimal numeral, or the number. -/
inductive GasValue (n : Nat) : Json → Prop where
  | decimal (zeros : Nat) :
      GasValue n (.str (String.ofList (List.replicate zeros '0' ++ Nat.toDigits 10 n)))
  | hexadecimal {digits : List Char} (h : digits.map Char.toLower = Nat.toDigits 16 n) :
      GasValue n (.str (String.ofList ('0' :: 'x' :: digits)))
  | number (h : n < 2 ^ 64) : GasValue n (.num (.int n))

/-- What states a gas of `n` in JSON text. -/
inductive GasSource (n : Nat) : Source → Prop where
  | value {j : Json} (h : GasValue n j) : GasSource n j.toSource
  | literal {l : Literal} (h : l.IsWord n) : GasSource n (.num l.number?)

variable {n : Nat} {j : Json} {s : Source}

theorem GasValue.gasOf?_eq (h : GasValue n j) : gasOf? j = some n := by
  cases h with
  | decimal zeros =>
    refine Declaration.gasOf?_of_decimal? ?_
    rw [String.toList_ofList]
    exact Text.decimal?_zeros zeros n
  | hexadecimal h =>
    rw [gasOf?, String.toList_ofList, gasOfText?]
    exact Text.grouped?_of_toLower h
  | number h =>
    have hn : (0 : Int) ≤ n ∧ (n : Int) < UInt64.size := by
      change (0 : Int) ≤ n ∧ (n : Int) < (18446744073709551616 : Nat)
      omega
    rw [gasOf?, if_pos hn]
    rfl

theorem GasSource.exists_value (h : GasSource n s) (limit : Nat) :
    ∃ j, gasOf? j = some n ∧
      Source.optional? (Source.toJson? limit) "gas" [("gas", s)] = some (some j) := by
  cases h with
  | value h =>
    refine ⟨_, h.gasOf?_eq, ?_⟩
    cases h <;> rfl
  | literal h =>
    refine ⟨_, (GasValue.number h.lt).gasOf?_eq, ?_⟩
    rw [h.number?_eq]
    rfl

/-- A number that is not one of the words is no gas. -/
theorem gasOf?_num {x : Json.Number} (h : ∀ n : Nat, n < 2 ^ 64 → x ≠ .int n) :
    gasOf? (.num x) = none := by
  cases x with
  | float => rfl
  | int i =>
    rw [gasOf?, if_neg]
    rintro ⟨hpos, hlt⟩
    obtain ⟨n, rfl⟩ := Int.eq_ofNat_of_zero_le hpos
    exact h n (Int.ofNat_lt.mp hlt) rfl

section Members

variable {before after : List (Option String × Source)} {limit : Nat}

theorem ofSource?_gas (h : ∀ m ∈ before ++ after, m.1 ≠ some "gas") :
    ofSource? (limit + 1) (.obj (before ++ (some "gas", s) :: after)) =
      (ofSource? (limit + 1) (.obj (before ++ after))).bind fun o =>
        (Source.optional? (Source.toJson? limit) "gas" [("gas", s)]).map fun gas =>
          { o with gas } := by
  rw [ofSource?, ofSource?, Source.fields?, Source.fields?,
    Source.knownMembers?_insert (by decide) h]
  rw [List.forall_mem_append] at h
  cases hfields : Source.knownMembers? keys (before ++ after) with
  | none => rfl
  | some fields =>
    obtain ⟨rfl, -⟩ := Source.knownMembers?_eq_some_iff.mp hfields
    have hbefore : (Source.known keys before).lookup "gas" = none := Source.lookup_known h.1
    have hrest : (Source.known keys before ++ Source.known keys after).lookup "gas" = none := by
      rw [List.lookup_append, hbefore, Source.lookup_known h.2, Option.none_or]
    simp [Source.known_append, Source.optional?_insert, Source.optional?_here hbefore,
      Source.optional?_of_lookup hrest, Option.bind_assoc, Option.map_eq_bind]

theorem gas_of_ofSource? {o : DeclarationObject} {members : List (Option String × Source)}
    (h : ∀ m ∈ members, m.1 ≠ some "gas")
    (ho : ofSource? (limit + 1) (.obj members) = some o) : o.gas = none := by
  rw [ofSource?] at ho
  simp only [Option.bind_eq_bind, Option.bind_eq_some_iff] at ho
  obtain ⟨fields, hf, _, -, _, -, _, -, _, -, _, -, _, -, _, -, _, -, gas, hgas, ho⟩ := ho
  obtain ⟨rfl, -⟩ := Source.knownMembers?_eq_some_iff.mp hf
  rw [Source.optional?_of_lookup (Source.lookup_known h)] at hgas
  cases ho
  cases hgas
  rfl

end Members

end DeclarationObject

namespace Declaration

section Objects

variable {kind : Kind} {o : DeclarationObject} {d : Declaration} {n : Nat}

/-- Only the readers of constructors and of functions come to a declaration that takes gas. -/
theorem takesGas_kind (h : ofObjectAs kind o = .ok d) (hd : d.TakesGas) :
    kind = .constructor ∨ kind = .function := by
  cases kind with
  | constructor => exact .inl rfl
  | function => exact .inr rfl
  | error =>
    simp only [ofObjectAs, errorOfObject, mkError, bind_eq_ok_iff] at h
    obtain ⟨_, -, _, -, _, -, _, -, _, -, h⟩ := h
    cases h
    rcases hd with h | h <;> cases h
  | event =>
    simp only [ofObjectAs, eventOfObject, mkEvent, bind_eq_ok_iff] at h
    obtain ⟨_, -, _, -, _, -, _, -, h⟩ := h
    cases h
    rcases hd with h | h <;> cases h
  | struct =>
    simp only [ofObjectAs, structOfObject, mkStruct, bind_eq_ok_iff] at h
    obtain ⟨_, -, _, -, _, -, _, -, _, -, h⟩ := h
    cases h
    rcases hd with h | h <;> cases h
  | fallback =>
    obtain ⟨-, -, h⟩ := bind_eq_ok_iff.mp h
    split at h
    · split at h <;> cases h
      rcases hd with h | h <;> cases h
    · obtain ⟨m, -, h⟩ := bind_eq_ok_iff.mp h
      cases m <;> cases h <;> rcases hd with h | h <;> cases h

theorem mkConstructor_withGas (inputs : List Param) (payable : Bool) (gas : Option Nat) :
    mkConstructor inputs payable gas = (mkConstructor inputs payable none).map (withGas gas) := by
  rw [mkConstructor, mkConstructor]
  cases unindexed inputs <;> rfl

theorem mkFunction_withGas (name : String) (mutability : Mutability) (inputs outputs : List Param)
    (gas : Option Nat) :
    mkFunction name mutability inputs outputs gas =
      (mkFunction name mutability inputs outputs none).map (withGas gas) := by
  rw [mkFunction, mkFunction]
  cases unindexed inputs with
  | error => rfl
  | ok inputs =>
    cases unindexed outputs with
    | error => rfl
    | ok outputs => cases nameFor .function name <;> rfl

/-- Whether a constructor is payable, if it may have this mutability at all. -/
def payableOf : Mutability → Except Error Bool
  | .payable => .ok true
  | .nonpayable => .ok false
  | m => .error (.argument (.constructorMutability m))

/-- Everything but the gas is read before it, and nothing of it is looked at again afterwards. -/
theorem exists_ofObjectAs_eq (hk : kind = .constructor ∨ kind = .function)
    (o : DeclarationObject) :
    ∃ read : Except Error (Except Error Declaration), ∀ gas : Option Json,
      ofObjectAs kind { o with gas } = read >>= fun made =>
        DeclarationObject.gasAmount { o with gas } >>= fun amount =>
          made.map (withGas amount) := by
  obtain rfl | rfl := hk
  · refine ⟨do
      o.checkType .constructor
      let payable ← payableOf (← o.mutability)
      let inputs ← DeclarationObject.params false o.inputs
      return mkConstructor inputs payable none, fun gas => ?_⟩
    rw [bind_assoc]
    refine bind_congr fun _ => ?_
    rw [bind_assoc]
    refine bind_congr fun m => ?_
    cases m with
    | payable | nonpayable =>
      simp only [bind_assoc, pure_bind, ← mkConstructor_withGas]
      rfl
    | pure | view => rfl
  · refine ⟨do
      o.checkType .function
      let name ← o.requiredName
      let mutability ← o.mutability
      let inputs ← DeclarationObject.params false o.inputs
      let outputs ← DeclarationObject.params false o.outputs
      return mkFunction name mutability inputs outputs none, fun gas => ?_⟩
    simp only [bind_assoc, pure_bind, ← mkFunction_withGas]
    rfl

/-- What an object declares is what it declares without its gas, and that. -/
theorem ofObjectAs_gas_iff (hd : d.TakesGas) (ho : o.gas = none) (gas : Option Json) :
    ofObjectAs kind { o with gas } = .ok d ↔
      DeclarationObject.gasAmount { o with gas } = .ok d.gas? ∧
        ofObjectAs kind o = .ok (d.withGas none) := by
  by_cases hk : kind = .constructor ∨ kind = .function
  · obtain ⟨read, hread⟩ := exists_ofObjectAs_eq hk o
    have hnone : o = { o with gas := none } := ho ▸ rfl
    rw [hread, hnone, hread]
    simp only [bind_eq_ok_iff, map_eq_ok_iff]
    constructor
    · rintro ⟨_, hmade, amount, hgas, made, rfl, rfl⟩
      rw [takesGas_withGas] at hd
      rw [hd.gas?_withGas, withGas_withGas]
      exact ⟨hgas, _, hmade, none, rfl, made, rfl, rfl⟩
    · rintro ⟨hgas, _, hmade, amount, hamount, made, rfl, he⟩
      obtain rfl := Except.ok.inj hamount
      refine ⟨_, hmade, d.gas?, hgas, made, rfl, ?_⟩
      have hback := congrArg (withGas d.gas?) he
      rwa [withGas_withGas, withGas_withGas, withGas_gas?] at hback
  · constructor
    · exact fun h => absurd (takesGas_kind h hd) hk
    · exact fun h => absurd (takesGas_kind h.2 (takesGas_withGas.mpr hd)) hk

/-- What is no gas stands in the way of a declaration that would take one. -/
theorem ofObjectAs_gas_error {gas : Option Json} {e : Error} (hd : d.TakesGas) (ho : o.gas = none)
    (h : ofObjectAs kind o = .ok d) (he : DeclarationObject.gasAmount { o with gas } = .error e) :
    ofObjectAs kind { o with gas } = .error e := by
  obtain ⟨read, hread⟩ := exists_ofObjectAs_eq (takesGas_kind h hd) o
  have hnone : o = { o with gas := none } := ho ▸ rfl
  rw [hnone, hread] at h
  obtain ⟨made, hmade, -⟩ := bind_eq_ok_iff.mp h
  rw [hread, hmade, he]
  rfl

theorem ofObject_gas_iff (hd : d.TakesGas) (ho : o.gas = none) (gas : Option Json) :
    ofObject { o with gas } = .ok d ↔
      DeclarationObject.gasAmount { o with gas } = .ok d.gas? ∧
        ofObject o = .ok (d.withGas none) := by
  -- which reader it goes to does not hang on the gas
  have htype : DeclarationObject.typeText { o with gas } = o.typeText := rfl
  rw [ofObject, ofObject, htype]
  cases Kind.all.find? (·.words.contains o.typeText) with
  | some kind => exact ofObjectAs_gas_iff hd ho gas
  | none =>
    constructor
    · intro h
      cases h
    · rintro ⟨-, h⟩
      cases h

theorem ofObject_gas_error {gas : Option Json} {e : Error} (hd : d.TakesGas) (ho : o.gas = none)
    (h : ofObject o = .ok d) (he : DeclarationObject.gasAmount { o with gas } = .error e) :
    ofObject { o with gas } = .error e := by
  have htype : DeclarationObject.typeText { o with gas } = o.typeText := rfl
  rw [ofObject] at h
  rw [ofObject, htype]
  cases hfind : Kind.all.find? (·.words.contains o.typeText) with
  | some kind =>
    rw [hfind] at h
    exact ofObjectAs_gas_error hd ho h he
  | none =>
    rw [hfind] at h
    cases h

end Objects

end Declaration

theorem Json.isBlank_of_isSpace {c : Char} (h : isSpace c = true) : Text.isBlank c = true := by
  simp only [isSpace, Bool.or_eq_true, beq_iff_eq] at h
  obtain ((rfl | rfl) | rfl) | rfl := h <;> decide

/-- The text of an object is not taken for a signature. -/
theorem Declaration.parse_eq_ofJsonText {members : List (Option String × Source)} {text : String}
    (h : (Source.obj members).TextIs text) : parse text = ofJsonText text := by
  obtain ⟨before, cs, after, ht, hb, hs, -⟩ := h
  have hblank : ∀ c ∈ before, Text.isBlank c = true := fun c hc => Json.isBlank_of_isSpace (hb c hc)
  have hhead : (Text.trimStart text.toList).head? = some '\x7b' := by
    rw [ht, List.append_assoc, Text.trimStart, List.dropWhile_append_of_pos hblank]
    cases hs <;> rfl
  rw [parse, if_pos hhead]

namespace Declaration

open DeclarationObject (GasValue GasSource)

variable {n : Nat} {j : Json} {s : Source} {d : Declaration} {text : String}

/-- To read the declaration where a gas is stated comes to the same as that it has a gas of `n`, and
that it is read but for the gas where none is stated. -/
def AddsGas (n : Nat) (stated unstated : Except Error Declaration) (d : Declaration) : Prop :=
  stated = .ok d ↔ d.gas? = some n ∧ unstated = .ok (d.withGas none)

theorem head?_trimStart_append_gas {written : String} (h : GasText n written.toList)
    (ht : (Text.trimStart text.toList).head? ≠ some '\x7b') :
    (Text.trimStart (text ++ written).toList).head? ≠ some '\x7b' := by
  rw [String.toList_append, Text.trimStart, List.dropWhile_append]
  split
  · generalize written.toList = cs at h
    obtain ⟨hb, -, -, -⟩ := h
    rw [List.dropWhile_append_of_pos hb]
    simp [Text.isBlank]
  next hne =>
    rwa [List.head?_append_of_ne_nil _ (by simpa using hne)]

theorem addsGas_text {written : String} (h : GasText n written.toList)
    (ht : (Text.trimStart text.toList).head? ≠ some '\x7b') (d : Declaration) :
    AddsGas n (parse (text ++ written)) (parse text) d := by
  rw [parse, if_neg (head?_trimStart_append_gas h ht), parse, if_neg ht]
  exact ofSignature_append_gas_iff h text d

/-- What is read of a value that is written, if it nests no deeper than `limit`. -/
def ofSource (limit : Nat) (s : Source) : Except Error Declaration :=
  (DeclarationObject.ofSource? limit s).elim (.error .json) ofObject

theorem ofJson_eq (j : Json) : ofJson j = ofSource j.toSource.nesting j.toSource := by
  rw [ofJson, DeclarationObject.ofJson?, ofSource]
  cases DeclarationObject.ofSource? j.toSource.nesting j.toSource <;> rfl

theorem parse_of_textIs {members : List (Option String × Source)}
    (h : (Source.obj members).TextIs text) :
    parse text = ofSource Json.maxNesting (.obj members) := by
  rw [parse_eq_ofJsonText h, ofJsonText, DeclarationObject.ofText?,
    Source.ofText?_eq_some_iff.mpr h, Option.bind_some, ofSource]
  cases DeclarationObject.ofSource? Json.maxNesting (.obj members) <;> rfl

section Sources

variable {before after : List (Option String × Source)}
  (hkeys : ∀ m ∈ before ++ after, m.1 ≠ some "gas") (limit : Nat)

include hkeys

theorem addsGas_source (hs : GasSource n s) (hd : d.TakesGas) :
    AddsGas n (ofSource (limit + 1) (.obj (before ++ (some "gas", s) :: after)))
      (ofSource (limit + 1) (.obj (before ++ after))) d := by
  obtain ⟨j, hj, hread⟩ := hs.exists_value limit
  rw [ofSource, ofSource, DeclarationObject.ofSource?_gas hkeys, hread]
  cases ho : DeclarationObject.ofSource? (limit + 1) (.obj (before ++ after)) with
  | none =>
    constructor
    · intro h
      cases h
    · rintro ⟨-, h⟩
      cases h
  | some o =>
    have hgas : DeclarationObject.gasAmount { o with gas := some j } = .ok (some n) :=
      gasAmount_of_some rfl hj
    refine (ofObject_gas_iff hd (DeclarationObject.gas_of_ofSource? hkeys ho) (some j)).trans ?_
    rw [hgas, Except.ok.injEq, eq_comm]
    rfl

/-- A number that is no word keeps a declaration that could state a gas from being read. -/
theorem ofSource_unfit {x : Option Json.Number} (hx : ∀ m : Nat, m < 2 ^ 64 → x ≠ some (.int m))
    (hd : d.TakesGas) (h : ofSource (limit + 1) (.obj (before ++ after)) = .ok d) :
    ofSource (limit + 1) (.obj (before ++ (some "gas", .num x) :: after)) =
      .error (x.elim .json fun x => .argument (.gas (.num x))) := by
  rw [ofSource] at h
  rw [ofSource, DeclarationObject.ofSource?_gas hkeys]
  cases ho : DeclarationObject.ofSource? (limit + 1) (.obj (before ++ after)) with
  | none =>
    rw [ho] at h
    cases h
  | some o =>
    rw [ho] at h
    cases x with
    | none => rfl
    | some x =>
      have hnone := DeclarationObject.gasOf?_num fun m hm he => hx m hm (congrArg some he)
      refine ofObject_gas_error hd (DeclarationObject.gas_of_ofSource? hkeys ho) h ?_
      rw [DeclarationObject.gasAmount]
      dsimp only
      rw [hnone]
      rfl

end Sources

section Values

/-- A value is read like its source, whose nesting a flat gas does not change. -/
theorem exists_ofJson_eq (h : j.toSource.nesting = 0) (before after : List (String × Json)) :
    ∃ limit, ofJson (.obj (before ++ ("gas", j) :: after)) = ofSource (limit + 1)
        (.obj (Json.toSourceMembers before ++ (some "gas", j.toSource) ::
          Json.toSourceMembers after)) ∧
      ofJson (.obj (before ++ after)) = ofSource (limit + 1)
        (.obj (Json.toSourceMembers before ++ Json.toSourceMembers after)) := by
  rw [ofJson_eq, ofJson_eq]
  simp only [Json.toSource, Json.toSourceMembers_eq, List.map_append, List.map_cons,
    Source.nesting]
  rw [Source.nestingMembers_insert h]
  exact ⟨_, rfl, rfl⟩

variable {before after : List (String × Json)} (hkeys : ∀ m ∈ before ++ after, m.1 ≠ "gas")

include hkeys

theorem toSourceMembers_ne_gas :
    ∀ m ∈ Json.toSourceMembers before ++ Json.toSourceMembers after, m.1 ≠ some "gas" := by
  rw [Json.toSourceMembers_eq, Json.toSourceMembers_eq, ← List.map_append, List.forall_mem_map]
  exact fun m hm he => hkeys m hm (Option.some.inj he)

theorem addsGas_value (hj : GasValue n j) (hd : d.TakesGas) :
    AddsGas n (ofJson (.obj (before ++ ("gas", j) :: after)))
      (ofJson (.obj (before ++ after))) d := by
  have hflat : j.toSource.nesting = 0 := by cases hj <;> rfl
  obtain ⟨limit, hstated, hunstated⟩ := exists_ofJson_eq hflat before after
  rw [hstated, hunstated]
  exact addsGas_source (toSourceMembers_ne_gas hkeys) limit (.value hj) hd

theorem ofJson_unfit {x : Json.Number} (hx : ∀ m : Nat, m < 2 ^ 64 → x ≠ .int m)
    (hd : d.TakesGas) (h : ofJson (.obj (before ++ after)) = .ok d) :
    ofJson (.obj (before ++ ("gas", .num x) :: after)) =
      .error (.argument (.gas (.num x))) := by
  obtain ⟨limit, hstated, hunstated⟩ :=
    exists_ofJson_eq (j := .num x) rfl before after
  rw [hunstated] at h
  rw [hstated]
  exact ofSource_unfit (toSourceMembers_ne_gas hkeys) limit
    (fun m hm he => hx m hm (Option.some.inj he)) hd h

end Values

/-- In JSON a gas is written as a text of its digits. -/
theorem exists_toJson_eq (h : d.gas? = some n) :
    ∃ before after, (∀ m ∈ before ++ after, m.1 ≠ "gas") ∧
      d.toJson = .obj (before ++ ("gas", .str n.repr) :: after) := by
  cases d with
  | constructor inputs payable gas =>
    obtain rfl : gas = some n := h
    exact ⟨[], _, by simp, rfl⟩
  | function name mutability inputs outputs gas =>
    obtain rfl : gas = some n := h
    exact ⟨[("constant", .bool mutability.isConstant)], _, by simp, rfl⟩
  | _ => cases h

theorem gas?_rename (f : Option Identifier → Option Identifier) : (d.rename f).gas? = d.gas? := by
  cases d <;> rfl

theorem parse_signature_shown {style : Style} (hs : style.Readable) (hd : Obtained true d)
    (h : (∀ name ∈ d.names, name.Free) ∨ ∃ text, ofSignature text = .ok d) :
    parse (d.signature style) = .ok (d.rename style.nameShown) := by
  have hsignature : ofSignature (d.signature .full) = .ok d := by
    obtain hf | ⟨text, ht⟩ := h
    · rw [← parse_signature]
      exact (parse_signature_eq_ok_iff hd.constructed hd.inside).mpr hf
    · exact ofSignature_signature ht
  rw [parse_signature]
  exact ofSignature_signature_shown hs hsignature

theorem parse_text_eq_ok_iff {read : Declaration} (hd : Obtained true d) :
    parse d.toJson.text = .ok read ↔ read = d ∧ d.tupleDepth ≤ 62 := by
  by_cases h : d.tupleDepth ≤ 62
  · rw [parse_text_of_le h, ofObject_toObject hd.constructed hd.inside, Except.ok.injEq, eq_comm]
    exact (and_iff_left h).symm
  · rw [parse_text_of_lt (Nat.lt_of_not_le h)]
    exact ⟨nofun, fun hread => absurd hread.2 h⟩

end Declaration

end ContractAbi
