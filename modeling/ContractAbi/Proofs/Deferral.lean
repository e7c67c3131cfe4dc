import ContractAbi.Proofs.Shape

/-!
A walk that starts all of its leaves and waits for them together does what a walk does that takes
one leaf after the other, in whatever order the leaves are done.
-/

namespace ContractAbi

namespace Walk

variable {σ α β : Type}

theorem run_ofExcept_ok (a : α) (s : σ) : (ofExcept (.ok a) : Walk σ α).run s = .ok a s := rfl

theorem run_ofExcept_error (e : Error) (s : σ) :
    (ofExcept (.error e) : Walk σ α).run s = .error e s := rfl

/-- A transform that never fails. -/
def Unfailing (leaf : Elementary → Value → Walk σ Value) : Prop :=
  ∀ type v s, ∃ w s', (leaf type v).run s = .ok w s'

/-- Keeps a record of its calls and changes no value. -/
def noting (type : Elementary) (v : Value) : Walk (List (Elementary × Value)) Value := do
  modify (· ++ [(type, v)])
  return v

/-- Returns one given reply after the other. -/
def replying (_ : Elementary) (v : Value) : Walk (List Value) Value := do
  match ← get with
  | [] => return v
  | reply :: rest =>
    set rest
    return reply

/-- Steps one after the other fail if one of them does, and with its error if those before it do
not fail. -/
theorem run_mapM_of_error {f : α → Walk σ β} {before : List α} {x : α} (after : List α) {e : Error}
    {P : Prop}
    (hb : P → ∀ y ∈ before, ∀ s, ∃ z s', (f y).run s = .ok z s')
    (hx : ∀ s, ∃ e' s', (f x).run s = .error e' s' ∧ (P → e' = e)) (s : σ) :
    ∃ e' s', ((before ++ x :: after).mapM f).run s = .error e' s' ∧ (P → e' = e) := by
  induction before generalizing s with
  | nil =>
    obtain ⟨e', s', hs, he⟩ := hx s
    exact ⟨e', s', by rw [List.nil_append, List.mapM_cons, run_bind_of_error hs], he⟩
  | cons y before ih =>
    rw [List.cons_append, List.mapM_cons]
    cases hy : (f y).run s with
    | ok z s₁ =>
      obtain ⟨e', s', hs, he⟩ := ih (fun hP => (List.forall_mem_cons.mp (hb hP)).2) s₁
      exact ⟨e', s', by rw [run_bind_of_ok hy, run_bind_of_error hs], he⟩
    | error e' s' =>
      refine ⟨e', s', run_bind_of_error hy _, fun hP => ?_⟩
      obtain ⟨z, s₁, hz⟩ := hb hP y List.mem_cons_self s
      exact nomatch hy.symm.trans hz

theorem run_mapM_of_ok {f : α → Walk σ β} (h : ∀ x s, ∃ y s', (f x).run s = .ok y s')
    (xs : List α) (s : σ) : ∃ ys s', (xs.mapM f).run s = .ok ys s' := by
  induction xs generalizing s with
  | nil => exact ⟨[], s, rfl⟩
  | cons x xs ih =>
    obtain ⟨y, s₁, hy⟩ := h x s
    obtain ⟨ys, s', hs⟩ := ih s₁
    exact ⟨y :: ys, s', by rw [List.mapM_cons, run_bind_of_ok hy, run_bind_of_ok hs]; rfl⟩

theorem run_mapM_noting (calls seen : List (Elementary × Value)) :
    (calls.mapM fun call => noting call.1 call.2).run seen =
      .ok (calls.map Prod.snd) (seen ++ calls) := by
  induction calls generalizing seen with
  | nil => exact congrArg (EStateM.Result.ok []) (List.append_nil seen).symm
  | cons call calls ih =>
    have hcall : (noting call.1 call.2).run seen = .ok call.2 (seen ++ [call]) := rfl
    rw [List.mapM_cons, run_bind_of_ok hcall, run_bind_of_ok (ih _), List.append_assoc]
    rfl

theorem run_mapM_replying {calls : List (Elementary × Value)} {replies : List Value}
    (h : replies.length = calls.length) :
    (calls.mapM fun call => replying call.1 call.2).run replies = .ok replies [] := by
  induction calls generalizing replies with
  | nil => rw [List.length_eq_zero_iff.mp h]; rfl
  | cons call calls ih =>
    obtain ⟨reply, rest, rfl⟩ := List.exists_cons_of_length_eq_add_one h
    have hcall : (replying call.1 call.2).run (reply :: rest) = .ok reply rest := rfl
    rw [List.mapM_cons, run_bind_of_ok hcall, run_bind_of_ok (ih (Nat.succ.inj h))]
    rfl

end Walk

namespace Plan

variable {σ : Type} {leaf : Elementary → Value → Walk σ Value}

/-- Taking the leaves one after the other and filling in the results amounts to the walk, whatever
results come after those. -/
def Performs (leaf : Elementary → Value → Walk σ Value) (p : Plan) (x : Walk σ Value) : Prop :=
  (fun results rest => p.fill (results ++ rest)) <$> p.leaves.mapM (fun l => leaf l.1 l.2) =
    (fun w rest => (w, rest)) <$> x

theorem fill_leaf_cons (type : Elementary) (v result : Value) (rest : List Value) :
    (Plan.leaf type v).fill (result :: rest) = (result, rest) := rfl

theorem performs_leaf (type : Elementary) (v : Value) :
    Performs leaf (.leaf type v) (leaf type v) := by
  simp only [Performs, leaves, List.mapM_cons, List.mapM_nil, bind_pure_comp, map_pure,
    Functor.map_map, List.singleton_append, fill_leaf_cons]

theorem performs_each {α : Type} {xs : List α} {parts : List Plan} {f : α → Walk σ Value}
    (h : List.Forall₂ (fun x part => Performs leaf part (f x)) xs parts) :
    (fun results rest => fillEach parts (results ++ rest)) <$>
        (leavesOf parts).mapM (fun l => leaf l.1 l.2) =
      (fun ws rest => (ws, rest)) <$> xs.mapM f := by
  induction h with
  | nil => simp only [leavesOf, fillEach, List.mapM_nil, map_pure, List.nil_append]
  | @cons x part xs parts hp _ ih =>
    -- The results of the parts to come are what is left over from this one.
    have hpart {β : Type} (k : (List Value → Value × List Value) → Walk σ β) :
        (do let results ← part.leaves.mapM fun l => leaf l.1 l.2
            k fun rest => part.fill (results ++ rest)) =
          (do let w ← f x
              k fun rest => (w, rest)) := by
      rw [← bind_map_left, hp, bind_map_left]
    have hparts {β : Type} (k : (List Value → List Value × List Value) → Walk σ β) :
        (do let results ← (leavesOf parts).mapM fun l => leaf l.1 l.2
            k fun rest => fillEach parts (results ++ rest)) =
          (do let ws ← xs.mapM f
              k fun rest => (ws, rest)) := by
      rw [← bind_map_left, ih, bind_map_left]
    calc
      _ = (do
            let first ← part.leaves.mapM fun l => leaf l.1 l.2
            let more ← (leavesOf parts).mapM fun l => leaf l.1 l.2
            return fun rest =>
              let item := part.fill (first ++ (more ++ rest))
              let items := fillEach parts item.2
              (item.1 :: items.1, items.2)) := by
        simp only [leavesOf, fillEach, List.mapM_append, map_bind, map_pure, List.append_assoc]
      _ = (do
            let w ← f x
            let more ← (leavesOf parts).mapM fun l => leaf l.1 l.2
            return fun rest =>
              let items := fillEach parts (more ++ rest)
              (w :: items.1, items.2)) :=
        hpart fun fill => do
          let more ← (leavesOf parts).mapM fun l => leaf l.1 l.2
          return fun rest =>
            let item := fill (more ++ rest)
            let items := fillEach parts item.2
            (item.1 :: items.1, items.2)
      _ = (do
            let w ← f x
            let ws ← xs.mapM f
            return fun rest => (w :: ws, rest)) :=
        bind_congr fun w => hparts fun fill => return fun rest =>
          let items := fill rest
          (w :: items.1, items.2)
      _ = _ := by simp only [List.mapM_cons, map_bind, map_pure]

theorem performs_branch {α : Type} {xs : List α} {parts : List Plan} {f : α → Walk σ Value}
    (h : List.Forall₂ (fun x part => Performs leaf part (f x)) xs parts) :
    Performs leaf (.branch parts) (.arr <$> xs.mapM f) := by
  have he := congrArg (Functor.map fun fill rest => (Value.arr (fill rest).1, (fill rest).2))
    (performs_each h)
  simpa only [Performs, leaves, fill, Functor.map_map] using he

end Plan

namespace Ty

variable {σ φ : Type} {leaf : Elementary → Value → Walk σ Value}

theorem walkEach_eq_mapM (components : List Param) (items : List Value) :
    walkEach leaf components items =
      (components.zip items).mapM fun part => part.1.type.walk leaf part.2 := by
  induction components generalizing items with
  | nil => cases items <;> rfl
  | cons p rest ih =>
    obtain ⟨name, indexed, type⟩ := p
    cases items with
    | nil => rfl
    | cons v items => rw [walkEach, ih, List.zip_cons_cons, List.mapM_cons]

theorem walk_array_of_ok {element : Ty} {length : Option UInt64} {v : Value} {items : List Value}
    (h : (array element length).arrayItems length v = .ok items) :
    (array element length).walk leaf v = .arr <$> items.mapM (element.walk leaf) := by
  rw [walk, h, map_eq_pure_bind]
  exact pure_bind items _

theorem walk_tuple_of_ok {components : List Param} {v : Value} {items : List Value}
    (h : (tuple components).tupleItems components v = .ok items) :
    (tuple components).walk leaf v =
      .arr <$> (components.zip items).mapM fun part => part.1.type.walk leaf part.2 := by
  rw [walk, h, ← walkEach_eq_mapM, map_eq_pure_bind]
  exact pure_bind items _

/-- What is planned is the walk. -/
theorem performs_walk {t : Ty} {v : Value} {p : Plan} (h : t.plan v = .ok p) :
    p.Performs leaf (t.walk leaf v) := by
  induction t using Ty.induction generalizing v p with
  | elementary type =>
    obtain rfl := Except.ok.inj h
    exact Plan.performs_leaf type v
  | array element length ih =>
    obtain ⟨items, hi, h⟩ := bind_eq_ok_iff.mp h
    obtain ⟨parts, hp, h⟩ := bind_eq_ok_iff.mp h
    obtain rfl := Except.ok.inj h
    rw [walk_array_of_ok hi]
    exact Plan.performs_branch ((mapM_eq_ok_iff.mp hp).imp fun _ _ => ih)
  | tuple components ih =>
    obtain ⟨items, hi, h⟩ := bind_eq_ok_iff.mp h
    obtain ⟨parts, hp, h⟩ := bind_eq_ok_iff.mp h
    obtain rfl := Except.ok.inj h
    rw [planEach_eq_mapM, mapM_eq_ok_iff] at hp
    have hmem : ∀ part ∈ components.zip items, part.1 ∈ components :=
      fun part hm => (List.of_mem_zip hm).1
    rw [walk_tuple_of_ok hi]
    have hparts := (List.forall₂_and_left _ _).mpr ⟨hmem, hp⟩
    exact Plan.performs_branch (hparts.imp fun part _ hpart => ih part.1 hpart.1 hpart.2)

theorem walk_eq_of_plan {t : Ty} {v : Value} {p : Plan} (h : t.plan v = .ok p) :
    t.walk leaf v =
      (fun results => (p.fill results).1) <$> p.leaves.mapM fun l => leaf l.1 l.2 := by
  have hp : p.Performs leaf (t.walk leaf v) := performs_walk h
  have hw := congrArg (Functor.map fun fill => (fill ([] : List Value)).1) hp
  simpa only [Functor.map_map, List.append_nil, id_map'] using hw.symm

/-- Where no walk can be planned, none returns, and a transform that never fails does not hide
why. -/
theorem run_walk_of_plan_error (leaf : Elementary → Value → Walk σ Value) {t : Ty} {v : Value}
    {e : Error} (h : t.plan v = .error e) (s : σ) :
    ∃ e' s', (t.walk leaf v).run s = .error e' s' ∧ (Walk.Unfailing leaf → e' = e) := by
  have hok {type : Ty} {item : Value} (hl : Walk.Unfailing leaf)
      (hp : ∃ plan, type.plan item = .ok plan) (s : σ) :
      ∃ w s', (type.walk leaf item).run s = .ok w s' := by
    obtain ⟨plan, hp⟩ := hp
    obtain ⟨results, s', hr⟩ := Walk.run_mapM_of_ok (fun l => hl l.1 l.2) plan.leaves s
    exact ⟨_, s', by rw [walk_eq_of_plan hp, run_map_of_ok hr]⟩
  induction t using Ty.induction generalizing v s with
  | elementary type => cases h
  | array element length ih =>
    rcases bind_eq_error_iff.mp h with hi | ⟨items, hi, h⟩
    · refine ⟨e, s, ?_, fun _ => rfl⟩
      rw [walk, hi, run_bind_of_error (Walk.run_ofExcept_error e s)]
    · rcases bind_eq_error_iff.mp h with hp | ⟨parts, -, h⟩
      · obtain ⟨before, item, after, rfl, hb, he⟩ := exists_of_mapM_eq_error hp
        obtain ⟨e', s', hs, he'⟩ := Walk.run_mapM_of_error after
          (fun hl item hm => hok hl (hb item hm)) (ih he) s
        exact ⟨e', s', by rw [walk_array_of_ok hi, run_map_of_error hs], he'⟩
      · cases h
  | tuple components ih =>
    rcases bind_eq_error_iff.mp h with hi | ⟨items, hi, h⟩
    · refine ⟨e, s, ?_, fun _ => rfl⟩
      rw [walk, hi, run_bind_of_error (Walk.run_ofExcept_error e s)]
    · rcases bind_eq_error_iff.mp h with hp | ⟨parts, -, h⟩
      · rw [planEach_eq_mapM] at hp
        obtain ⟨before, part, after, hz, hb, he⟩ := exists_of_mapM_eq_error hp
        have hmem : part.1 ∈ components :=
          (List.of_mem_zip (hz ▸ List.mem_append_right before List.mem_cons_self)).1
        obtain ⟨e', s', hs, he'⟩ := Walk.run_mapM_of_error after
          (fun hl part hm => hok hl (hb part hm)) (ih part.1 hmem he) s
        exact ⟨e', s', by rw [walk_tuple_of_ok hi, hz, run_map_of_error hs], he'⟩
      · cases h

/-- The calls that a walk makes, in order, if nothing fails. -/
def calls (t : Ty) (v : Value) : List (Elementary × Value) :=
  match (t.walk Walk.noting v).run [] with
  | .ok _ seen => seen
  | .error _ seen => seen

theorem calls_of_plan {t : Ty} {v : Value} {p : Plan} (h : t.plan v = .ok p) :
    t.calls v = p.leaves := by
  rw [calls, walk_eq_of_plan h, run_map_of_ok (Walk.run_mapM_noting p.leaves [])]
  exact List.nil_append p.leaves

theorem run_walkJoined_of_plan {start : Elementary → Value → StateM σ φ}
    {join : List φ → Walk σ (List Value)} {t : Ty} {v : Value} {p : Plan} (h : t.plan v = .ok p)
    {s s' : σ} {pending : List φ}
    (hs : (p.leaves.mapM fun l => start l.1 l.2).run s = (pending, s')) :
    (t.walkJoined start join v).run s =
      ((fun results => (p.fill results).1) <$> join pending).run s' := by
  have hstart : (Walk.ofState (p.leaves.mapM fun l => start l.1 l.2)).run s = .ok pending s' := by
    change EStateM.Result.ok _ _ = _
    rw [show (p.leaves.mapM fun l => start l.1 l.2) s = (pending, s') from hs]
  rw [walkJoined, h, map_eq_pure_bind, run_bind_of_ok (Walk.run_ofExcept_ok p s),
    run_bind_of_ok hstart]

end Ty

/-- What is asked of waiting for all that was started: if nothing fails, the results in the order
in which it was started, and else one of the failures. -/
structure Joins {σ φ : Type} (outcome : σ → φ → Except Error Value)
    (join : List φ → Walk σ (List Value)) : Prop where
  results (pending : List φ) (s : σ) (replies : List Value) :
    pending.map (outcome s) = replies.map .ok → ∃ s', (join pending).run s = .ok replies s'
  failure (pending : List φ) (s : σ) :
    (∃ e, .error e ∈ pending.map (outcome s)) →
      ∃ e s', .error e ∈ pending.map (outcome s) ∧ (join pending).run s = .error e s'

namespace Deferred

theorem mem_failures {ds : List Deferred} {failure : Nat × Error} :
    failure ∈ failures ds ↔ ∃ d ∈ ds, d.outcome = .error failure.2 ∧ d.delay = failure.1 := by
  obtain ⟨delay, e⟩ := failure
  rw [failures, List.mem_filterMap]
  refine exists_congr fun d => and_congr_right fun _ => ?_
  cases d.outcome <;> simp [and_comm]

theorem exists_earliest {failures : List (Nat × Error)} (h : failures ≠ []) :
    ∃ failure ∈ failures, earliest failures = some failure.2 := by
  induction failures with
  | nil => exact absurd rfl h
  | cons first rest ih =>
    rw [earliest]
    split
    next => exact ⟨first, List.mem_cons_self, rfl⟩
    next hf =>
      have hr : rest ≠ [] := by
        rintro rfl
        exact hf rfl
      obtain ⟨failure, hm, he⟩ := ih hr
      exact ⟨failure, List.mem_cons_of_mem first hm, he⟩

theorem exists_failure? {ds : List Deferred} (h : failures ds ≠ []) :
    ∃ failure ∈ failures ds, failure? ds = some failure.2 := by
  rw [failure?]
  split
  next => exact exists_earliest h
  next =>
    obtain ⟨failure, rest, hf⟩ := List.exists_cons_of_ne_nil h
    exact ⟨failure, hf ▸ List.mem_cons_self, by rw [hf]; rfl⟩

/-- Whatever the delays are. -/
theorem joins (σ : Type) : Joins (fun (_ : σ) (d : Deferred) => d.outcome)
    (fun pending => Walk.ofExcept (join pending)) where
  results pending s replies h := by
    have hnone : failures pending = [] := by
      refine List.eq_nil_iff_forall_not_mem.mpr fun failure hm => ?_
      obtain ⟨d, hd, he, -⟩ := mem_failures.mp hm
      have hmem : d.outcome ∈ replies.map .ok := h ▸ List.mem_map_of_mem hd
      obtain ⟨reply, -, hr⟩ := List.mem_map.mp hmem
      exact nomatch hr.trans he
    have hreplies : pending.filterMap (fun d => d.outcome.toOption) = replies := by
      calc
        _ = (pending.map outcome).filterMap Except.toOption := by
          rw [List.filterMap_map]
          rfl
        _ = replies := by
          rw [h, List.filterMap_map]
          exact List.filterMap_some
    refine ⟨s, ?_⟩
    simp only [join, failure?, hnone, earliest, List.head?_nil, Option.map_none, ite_self, hreplies]
    rfl
  failure pending s h := by
    obtain ⟨e, he⟩ := h
    obtain ⟨d, hd, ho⟩ := List.mem_map.mp he
    have hsome : failures pending ≠ [] :=
      List.ne_nil_of_mem (mem_failures.mpr ⟨d, hd, ho, rfl⟩ : (d.delay, e) ∈ failures pending)
    obtain ⟨failure, hm, hf⟩ := exists_failure? hsome
    obtain ⟨d', hd', ho', -⟩ := mem_failures.mp hm
    refine ⟨failure.2, s, List.mem_map.mpr ⟨d', hd', ho'⟩, ?_⟩
    simp only [join, hf]
    rfl

end Deferred

section Started

variable {σ φ α : Type}

theorem run_mapM_cons {f : α → StateM σ φ} (x : α) (xs : List α) (s : σ) :
    ((x :: xs).mapM f).run s =
      (((f x).run s).1 :: ((xs.mapM f).run ((f x).run s).2).1,
        ((xs.mapM f).run ((f x).run s).2).2) := by
  rw [List.mapM_cons]
  rfl

theorem length_started (f : α → StateM σ φ) (xs : List α) (s : σ) :
    ((xs.mapM f).run s).1.length = xs.length := by
  induction xs generalizing s with
  | nil => rfl
  | cons x xs ih => rw [run_mapM_cons, List.length_cons, ih, List.length_cons]

theorem map_started {β : Type} {f : α → StateM σ φ} {outcome : φ → β} {g : α → β}
    (h : ∀ x s, outcome ((f x).run s).1 = g x) (xs : List α) (s : σ) :
    ((xs.mapM f).run s).1.map outcome = xs.map g := by
  induction xs generalizing s with
  | nil => rfl
  | cons x xs ih => rw [run_mapM_cons, List.map_cons, h, ih, List.map_cons]

end Started

theorem Walk.mapM_ofExcept {σ α β : Type} (f : α → Except Error β) (xs : List α) :
    (xs.mapM fun x => Walk.ofExcept (f x) : Walk σ (List β)) = Walk.ofExcept (xs.mapM f) := by
  induction xs with
  | nil => rfl
  | cons x xs ih =>
    rw [List.mapM_cons, List.mapM_cons, ih]
    cases f x with
    | error e => rfl
    | ok y => cases xs.mapM f <;> rfl

namespace Ty

variable {σ φ : Type} {start : Elementary → Value → StateM σ φ}
  {join : List φ → Walk σ (List Value)} {outcome : σ → φ → Except Error Value}

theorem run_walkJoined_of_plan_error {t : Ty} {v : Value} {e : Error} (h : t.plan v = .error e)
    (s : σ) : (t.walkJoined start join v).run s = .error e s := by
  rw [walkJoined, h, run_bind_of_error (Walk.run_ofExcept_error e s)]

theorem run_walkJoined_of_results (hj : Joins outcome join) {t : Ty} {v : Value} {p : Plan}
    (hp : t.plan v = .ok p) {s s' : σ} {pending : List φ}
    (hs : (p.leaves.mapM fun l => start l.1 l.2).run s = (pending, s')) {replies : List Value}
    (hr : pending.map (outcome s') = replies.map .ok) :
    ∃ s'', (join pending).run s' = .ok replies s'' ∧
      (t.walkJoined start join v).run s = .ok (p.fill replies).1 s'' := by
  obtain ⟨s'', hjoin⟩ := hj.results pending s' replies hr
  exact ⟨s'', hjoin, by rw [run_walkJoined_of_plan hp hs, run_map_of_ok hjoin]⟩

theorem run_walkJoined_of_failure (hj : Joins outcome join) {t : Ty} {v : Value} {p : Plan}
    (hp : t.plan v = .ok p) {s s' : σ} {pending : List φ}
    (hs : (p.leaves.mapM fun l => start l.1 l.2).run s = (pending, s'))
    (he : ∃ e, .error e ∈ pending.map (outcome s')) :
    ∃ e s'', .error e ∈ pending.map (outcome s') ∧ (join pending).run s' = .error e s'' ∧
      (t.walkJoined start join v).run s = .error e s'' := by
  obtain ⟨e, s'', hm, hjoin⟩ := hj.failure pending s' he
  exact ⟨e, s'', hm, hjoin, by rw [run_walkJoined_of_plan hp hs, run_map_of_error hjoin]⟩

theorem run_walk_replying {t : Ty} {v : Value} {p : Plan} (hp : t.plan v = .ok p)
    {replies : List Value} (h : replies.length = p.leaves.length) :
    (t.walk Walk.replying v).run replies = .ok (p.fill replies).1 [] := by
  rw [walk_eq_of_plan hp, run_map_of_ok (Walk.run_mapM_replying h)]

/-- A transform without a state may be started or called. -/
theorem exists_run_walkJoined_iff (hj : Joins outcome join)
    {leaf : Elementary → Value → Except Error Value}
    (hl : ∀ type v s s', outcome s' ((start type v).run s).1 = leaf type v) (t : Ty) (v w : Value)
    (s : σ) :
    (∃ s', (t.walkJoined start join v).run s = .ok w s') ↔
      (t.walk (fun type v => Walk.ofExcept (leaf type v)) v).run () = .ok w () := by
  cases hp : t.plan v with
  | error e =>
    obtain ⟨e', _, hw, -⟩ :=
      run_walk_of_plan_error (fun type v => Walk.ofExcept (leaf type v)) hp ()
    rw [run_walkJoined_of_plan_error hp, hw]
    exact iff_of_false nofun nofun
  | ok p =>
    obtain ⟨pending, s', hs⟩ :
        ∃ pending s', (p.leaves.mapM fun l => start l.1 l.2).run s = (pending, s') := ⟨_, _, rfl⟩
    have hout : pending.map (outcome s') = p.leaves.map fun l => leaf l.1 l.2 := by
      rw [← map_started (fun l r => hl l.1 l.2 r s') p.leaves s, hs]
    rw [walk_eq_of_plan hp, Walk.mapM_ofExcept]
    cases hm : p.leaves.mapM fun l => leaf l.1 l.2 with
    | ok replies =>
      obtain ⟨s'', -, hw⟩ :=
        run_walkJoined_of_results hj hp hs (hout.trans (map_eq_of_mapM_eq_ok hm))
      rw [hw, run_map_of_ok (Walk.run_ofExcept_ok replies ())]
      simp
    | error e =>
      obtain ⟨before, l, after, hleaves, -, he⟩ := exists_of_mapM_eq_error hm
      have hfail : ∃ e, .error e ∈ pending.map (outcome s') := by
        refine ⟨e, hout ▸ List.mem_map.mpr ⟨l, ?_, he⟩⟩
        exact hleaves ▸ List.mem_append_right before List.mem_cons_self
      obtain ⟨e', s'', -, -, hw⟩ := run_walkJoined_of_failure hj hp hs hfail
      rw [hw, run_map_of_error (Walk.run_ofExcept_error e ())]
      exact iff_of_false nofun nofun

end Ty

/-- A walk with started leaves returns what a walk returns whose calls return the same. -/
theorem walkJoined_refines_walk {σ φ : Type} {outcome : σ → φ → Except Error Value}
    {join : List φ → Walk σ (List Value)} (hj : Joins outcome join)
    (start : Elementary → Value → StateM σ φ) (t : Ty) (v : Value) (s : σ) :
    (¬t.Fits v → ∃ fault type value,
      (t.walkJoined start join v).run s = .error (.shape fault type value) s ∧
      ∀ (τ : Type) (leaf : Elementary → Value → Walk τ Value), Walk.Unfailing leaf →
        ∀ r, ∃ r', (t.walk leaf v).run r = .error (.shape fault type value) r') ∧
    (t.Fits v → ∃ pending s',
      ((t.calls v).mapM fun call => start call.1 call.2).run s = (pending, s') ∧
      (∀ replies, pending.map (outcome s') = replies.map .ok → ∃ w s'',
        (join pending).run s' = .ok replies s'' ∧
        (t.walk Walk.replying v).run replies = .ok w [] ∧
        (t.walkJoined start join v).run s = .ok w s'') ∧
      ((∃ e, .error e ∈ pending.map (outcome s')) → ∃ e s'',
        .error e ∈ pending.map (outcome s') ∧
        (join pending).run s' = .error e s'' ∧
        (t.walkJoined start join v).run s = .error e s'')) ∧
    ∀ leaf : Elementary → Value → Except Error Value,
      (∀ type v s s', outcome s' ((start type v).run s).1 = leaf type v) → ∀ w,
        ((∃ s', (t.walkJoined start join v).run s = .ok w s') ↔
          (t.walk (fun type v => Walk.ofExcept (leaf type v)) v).run () = .ok w ()) := by
  refine ⟨fun hf => ?_, fun hf => ?_, fun leaf hl w => Ty.exists_run_walkJoined_iff hj hl t v w s⟩
  · cases hp : t.plan v with
    | ok p => exact absurd ((Ty.exists_plan_iff t v).mp ⟨p, hp⟩) hf
    | error e =>
      obtain ⟨fault, type, value, rfl⟩ := Ty.exists_of_plan_eq_error hp
      refine ⟨fault, type, value, Ty.run_walkJoined_of_plan_error hp s, fun τ leaf hl r => ?_⟩
      obtain ⟨e, r', hw, he⟩ := Ty.run_walk_of_plan_error leaf hp r
      exact ⟨r', he hl ▸ hw⟩
  · obtain ⟨p, hp⟩ := (Ty.exists_plan_iff t v).mpr hf
    obtain ⟨pending, s', hs⟩ :
        ∃ pending s', (p.leaves.mapM fun l => start l.1 l.2).run s = (pending, s') := ⟨_, _, rfl⟩
    refine ⟨pending, s', Ty.calls_of_plan hp ▸ hs, fun replies hr => ?_,
      Ty.run_walkJoined_of_failure hj hp hs⟩
    obtain ⟨s'', hjoin, hw⟩ := Ty.run_walkJoined_of_results hj hp hs hr
    have hlength : replies.length = p.leaves.length := by
      calc replies.length
        _ = pending.length := by simpa using congrArg List.length hr.symm
        _ = p.leaves.length := by
          rw [← length_started (fun l => start l.1 l.2) p.leaves s, hs]
    exact ⟨_, s'', hjoin, Ty.run_walk_replying hp hlength, hw⟩

/-- The last leaf is done first. -/
theorem walkJoined_refines_walk_backwards :
    let t := Ty.tuple [.ofType (.array (.elementary .bool) (some 2)),
      .ofType (.tuple [.ofType (.elementary .address)])]
    let v := Value.arr [.arr [.bool true, .null], .arr [.int 7]]
    let start (type : Elementary) (_ : Value) : StateM Nat Deferred := fun n =>
      (⟨.ok (.str (type.text ++ n.repr)), 3 - n⟩, n + 1)
    ∃ w s, (t.walk Walk.replying v).run [.str "bool0", .str "bool1", .str "address2"] = .ok w [] ∧
      (t.walkDeferred start v).run 0 = .ok w s := by
  intro t v start
  have hfits : t.Fits v := (Ty.exists_plan_iff t v).mp ⟨_, rfl⟩
  obtain ⟨-, hjoined, -⟩ := walkJoined_refines_walk (Deferred.joins Nat) start t v 0
  obtain ⟨pending, s', hs, hresults, -⟩ := hjoined hfits
  obtain ⟨rfl, rfl⟩ := Prod.mk.inj hs
  obtain ⟨w, s'', -, hw, hd⟩ := hresults [.str "bool0", .str "bool1", .str "address2"] rfl
  exact ⟨w, s'', hw, hd⟩

end ContractAbi
