import MemoSequence.Proofs.Pulls
import MemoSequence.Proofs.Threading
import MemoSequence.Proofs.Yields
set_option autoImplicit false

namespace MemoSequence
open Stream' (WSeq)
open Stream'.WSeq (think)
open Sequence (Formed elements trail)

section Values
variable {α : Type} {q : α → Bool} {d : Trail α} {values more : List α} {answer other : Option α} {n : ℕ}
  {v : α} {form : String}

theorem sought_front {r : Option ((α × String) × Trail α)} (hd : d = think^[n] (front r))
    (h : Sought q d values answer) :
    match r with
    | none => values = [] ∧ answer = none
    | some ((v, _), d) => (q v = true ∧ values = [v] ∧ answer = some v) ∨
      (q v = false ∧ ∃ rest, values = v :: rest ∧ Sought q d rest answer) := by
  cases h with
  | ended m =>
    obtain ⟨-, rfl⟩ := ticks_front_unique (r := none) hd
    exact ⟨rfl, rfl⟩
  | @found d v form m hv =>
    obtain ⟨-, rfl⟩ := ticks_front_unique (r := some ((v, form), d)) hd
    exact .inl ⟨hv, rfl, rfl⟩
  | @passed d v form _ _ m hv h =>
    obtain ⟨-, rfl⟩ := ticks_front_unique (r := some ((v, form), d)) hd
    exact .inr ⟨hv, _, rfl, h⟩

theorem Sought.unique (h : Sought q d values answer) (h' : Sought q d more other) :
    values = more ∧ answer = other := by
  induction h generalizing more other with
  | ended n =>
    obtain ⟨rfl, rfl⟩ := sought_front (r := none) rfl h'
    exact ⟨rfl, rfl⟩
  | @found d v form n hv =>
    obtain ⟨-, rfl, rfl⟩ | ⟨hv', -⟩ := sought_front (r := some ((v, form), d)) rfl h'
    · exact ⟨rfl, rfl⟩
    · exact absurd (hv.symm.trans hv') (by decide)
  | @passed d v form _ _ n hv _ ih =>
    obtain ⟨hv', -⟩ | ⟨-, rest, rfl, hrest⟩ := sought_front (r := some ((v, form), d)) rfl h'
    · exact absurd (hv'.symm.trans hv) (by decide)
    · obtain ⟨rfl, rfl⟩ := ih hrest
      exact ⟨rfl, rfl⟩

theorem Sought.drains (h : Sought q d values answer) :
    Drains (fun _ v => if q v then .done (some v) else .yield none) none d answer := by
  induction h with
  | ended n => exact .nil none n
  | found n hv => exact .done n (if_pos hv)
  | passed n hv _ ih => exact .yield n (if_neg (by simp [hv])) ih

theorem Sought.kept (h : Sought q d values answer) :
    match answer with
    | none => d.elements.filter (fun v => q v) ~ʷ .nil
    | some v => ∃ rest, d.elements.filter (fun v => q v) ~ʷ .cons v rest := by
  induction h with
  | ended n =>
    have hnil := filter_congr (q := fun v => q v = true) (Trail.elements_ticks_nil (α := α) n)
    rwa [filter_nil] at hnil
  | @found d v form n hv =>
    have hcons := filter_congr (q := fun v => q v = true) (Trail.elements_ticks_cons n v form d)
    rw [filter_cons, if_pos hv] at hcons
    exact ⟨_, hcons⟩
  | @passed d v form values answer n hv _ ih =>
    have hcons := filter_congr (q := fun v => q v = true) (Trail.elements_ticks_cons n v form d)
    rw [filter_cons, if_neg (by simp [hv])] at hcons
    have hrest := hcons.trans (WSeq.think_equiv _)
    cases answer with
    | none => exact hrest.trans ih
    | some u =>
      obtain ⟨rest, ih⟩ := ih
      exact ⟨rest, hrest.trans ih⟩

def reduced (φ : α × α → α) : List α → Option α
  | [] => none
  | v :: rest => some (rest.foldl (fun t v => φ (t, v)) v)

def reducing (φ : α × α → α) (t : Option α) (v : α) : Option α :=
  some (match t with
    | none => v
    | some t => φ (t, v))

theorem foldl_reducing (φ : α × α → α) (values : List α) :
    values.foldl (reducing φ) none = reduced φ values := by
  have hsome : ∀ (values : List α) (t : α),
      values.foldl (reducing φ) (some t) = some (values.foldl (fun t v => φ (t, v)) t) := by
    intro values
    induction values with
    | nil => exact fun _ => rfl
    | cons v rest ih => exact fun t => ih (φ (t, v))
  cases values with
  | nil => rfl
  | cons v rest => exact hsome rest v

theorem reduced_eq_none {φ : α × α → α} : reduced φ values = none ↔ values = [] := by
  cases values <;> simp [reduced]

theorem reduced_of_nil {φ : α × α → α} {u : Option α} :
    (∃ values, Lists (think^[n] (.nil : Trail α)) values ∧ reduced φ values = u) ↔ u = none := by
  simp only [lists_ticks_iff, lists_nil_iff, exists_eq_left, reduced]
  exact eq_comm

theorem reduced_of_cons {φ : α × α → α} {u : Option α} :
    (∃ values, Lists (think^[n] (.cons (v, form) d)) values ∧ reduced φ values = u) ↔
      ∃ more, Lists d more ∧ some (more.foldl (fun t v => φ (t, v)) v) = u := by
  simp only [lists_ticks_iff, lists_cons_iff]
  constructor
  · rintro ⟨_, ⟨more, rfl, hmore⟩, rfl⟩
    exact ⟨more, hmore, rfl⟩
  · rintro ⟨more, hmore, rfl⟩
    exact ⟨_, ⟨more, rfl, hmore⟩, rfl⟩

end Values

variable {ι : Type} [Basis ι] {k : Kind ι} {st : Store ι} {w : World ι} {s : Sequence k}

section Searches
variable {p : Fn (El k) Bool} {q : Value k → Bool}

/-- A run that searches, and that returns wherever something is found or the end is reached. -/
theorem searched_adequate {run : ℕ → Run ι (Option (El k))}
    (hsound : ∀ {fuel : ℕ} {answer : Option (El k)} {st' : Store ι}, run fuel st = .ok (answer, st') →
      Searched p q ∅ st w s answer st')
    (hgives : (∀ id, ¬ st.Running id) → ∀ {values v}, Sought q (trail w s) values v →
      ∃ answer st', Gives run st answer st') :
    Adequate run st w (El.reading (.option k)) fun v => ∃ values, Sought q (trail w s) values v where
  sound h := by
    obtain ⟨xs, values, v, w', -, hsought, hl, -, hanswer⟩ := hsound h
    exact ⟨w', v, hl, ⟨values, hsought⟩, hanswer⟩
  gives hquiet := by
    rintro v ⟨values, hv⟩
    obtain ⟨answer, st', h⟩ := hgives hquiet hv
    obtain ⟨fuel, hrun⟩ := h.run
    obtain ⟨xs, values', v', w', -, hsought, hl, -, hanswer⟩ := hsound hrun
    obtain ⟨-, rfl⟩ := hv.unique hsought
    exact ⟨answer, st', w', h, hl, hanswer⟩

variable (hst : st.Means w) (hs : Formed w s) (hp : (El.reading k).fn (.same Bool) w p.apply q)
include hst hs hp

theorem find_adequate :
    Adequate (fun fuel => Sequence.find? p fuel s) st w (El.reading (.option k))
      fun v => ∃ values, Sought q (trail w s) values v := by
  refine searched_adequate (find_searched hp hst hs) fun hquiet values v h => ?_
  have hstep : (El.reading (.option k)).step w
      (fun _ x => do if ← Run.call p x then return .done (some x) else return .yield none)
      (fun _ v => if q v then .done (some v) else .yield none) :=
    step_of_test hp (fun _ _ _ _ _ hx => El.reading_some hx) fun w _ _ _ _ _ => El.reading_none w k
  obtain ⟨answer, st', -, hgives, -⟩ :=
    traverse_returns (El.lasting_reading (.option k)) hstep hst hquiet hs (El.reading_none w k) h.drains
  exact ⟨answer, st', hgives⟩

theorem filter_head_adequate :
    Adequate (Plan.filter (.given s) p).head st w (El.reading (.option k))
      fun v => ∃ values, Sought q (trail w s) values v := by
  refine searched_adequate (filter_searched hst hs hp) fun hquiet values v h => ?_
  have hmeans := Plan.filter_means (given_means hs) hp
  have helements := Shown.elements_filtered q (Sequence.shown w s)
  have hkept := h.kept
  cases v with
  | none =>
    obtain ⟨st', hgives⟩ := Plan.head_of_nil hmeans hst hquiet (helements.trans hkept)
    exact ⟨none, st', hgives⟩
  | some v =>
    obtain ⟨rest, hcons⟩ := hkept
    obtain ⟨x, st', -, hgives, -⟩ := Plan.head_of_cons hmeans hst hquiet (helements.trans hcons)
    exact ⟨some x, st', hgives⟩

end Searches

namespace Sequence

theorem any_eq_find (p : Fn (El k) Bool) (fuel : ℕ) (s : Sequence k) :
    any p fuel s = Option.isSome <$> find? p fuel s := by
  refine traverse_map (f := Option.isSome) (fun _ x => ?_) fuel none s
  rw [map_bind]
  refine bind_congr fun passes => ?_
  cases passes <;> rfl

theorem all_eq_any (p : Fn (El k) Bool) (fuel : ℕ) (s : Sequence k) :
    all p fuel s = (! ·) <$> any ⟨fun x => !p.apply x, p.note⟩ fuel s := by
  refine traverse_map (f := (! ·)) (fun _ x => ?_) fuel false s
  simp only [Run.call, bind_assoc, map_bind, pure_bind]
  refine bind_congr fun _ => ?_
  cases p.apply x <;> rfl

def foldFirst (f : Fn (El k × El k) (El k)) (fuel : ℕ) (s : Sequence k) : Run ι (Option (El k)) := do
  let rest ← Run.build (.skip (.given s) 1)
  match ← first? fuel s with
  | none => return none
  | some x => return some (← fold f x fuel rest)

end Sequence

section Reductions
variable {f : Fn (El k × El k) (El k)} {φ : Value k × Value k → Value k}

theorem first_adequate (hst : st.Means w) (hs : Formed w s) :
    Adequate (fun fuel => Sequence.first? fuel s) st w (El.reading (.option k))
      fun v => ∃ r, (∃ n, trail w s = think^[n] (front r)) ∧ r.map (·.1.1) = v := by
  refine (next_adequate hst hs).mapped fun w' answer r h => ?_
  obtain ⟨rfl, hformed⟩ := h
  cases answer with
  | none => exact El.reading_none w' k
  | some p => exact El.reading_some ⟨(hformed p rfl).1, rfl⟩

theorem behind_adequate (hst : st.Means w)
    (hf : ((El.reading k).prod (El.reading k)).fn (El.reading k) w f.apply φ)
    {d : Trail (Value k)} {n : ℕ} {r : Option ((Value k × String) × Trail (Value k))}
    (hd : d = think^[n] (front r)) {rest : Sequence k} (hrest : El.reading (.seq k) w rest (.deferred (d.drop 1)))
    {x : Option (El k)} (hx : El.reading (.option k) w x (r.map (·.1.1))) :
    Adequate (fun fuel => match x with
      | none => return none
      | some x => do return some (← Sequence.fold f x fuel rest)) st w (El.reading (.option k))
      fun u => ∃ values, Lists d values ∧ reduced φ values = u := by
  obtain ⟨hrest, hshown⟩ := hrest
  match r, x, El.reading_option hx with
  | none, none, .none =>
    exact (returned_adequate hst (El.reading_none w k)).congr fun u => hd ▸ reduced_of_nil.symm
  | some ((v, form), e), some x, .some hx =>
    have hdrop : trail w rest = think (think^[n] e) := by
      refine (congrArg Shown.trail hshown).trans (congrArg think ?_)
      rw [hd, (strict_drop 1).ticks]
      exact congrArg _ (WSeq.dropn_cons (v, form) e 0)
    have hlists : ∀ values, Lists (trail w rest) values ↔ Lists e values := fun values =>
      hdrop ▸ (lists_ticks_iff 1).trans (lists_ticks_iff n)
    have hfold := (fold_adequate hst hrest hx hf).congr fun _ => drains_fold_iff
    refine (hfold.mapped fun _ _ _ h => El.reading_some h).congr fun u => ?_
    refine Iff.trans ?_ (hd ▸ reduced_of_cons).symm
    simp only [hlists, ↓existsAndEq, and_true]

variable (hst : st.Means w) (hs : Formed w s)
  (hf : ((El.reading k).prod (El.reading k)).fn (El.reading k) w f.apply φ)
include hst hs hf

theorem reduce_adequate :
    Adequate (fun fuel => Sequence.reduce? f fuel s) st w (El.reading (.option k))
      fun u => ∃ values, Lists (trail w s) values ∧ reduced φ values = u := by
  have hstep : (El.reading (.option k)).step w
      (fun state x => match state with
        | none => return .yield (some x)
        | some acc => do return .yield (some (← Run.call f (acc, x))))
      (fun t v => .yield (reducing φ t v)) := by
    intro w' hw _ _ x v ht hx
    cases El.reading_option ht with
    | none => exact ⟨_, Run.notes_pure _, El.reading_some hx⟩
    | some hread =>
      exact ⟨_, Run.notes_call_bind (Run.notes_pure _), El.reading_some (hf w' hw (_, x) (_, v) ⟨hread, hx⟩)⟩
  refine (traverse_adequate (El.lasting_reading (.option k)) hstep hst hs (El.reading_none w k)).congr
    fun _ => drains_fold_iff.trans ?_
  simp only [foldl_reducing]

theorem foldFirst_adequate :
    Adequate (fun fuel => Sequence.foldFirst f fuel s) st w (El.reading (.option k))
      fun u => ∃ values, Lists (trail w s) values ∧ reduced φ values = u := by
  have hrest : (Plan.skip (.given s) 1).Means w (.deferred ((trail w s).drop 1)) :=
    skip_means (given_means hs) 1
  refine Plan.built_adequate hrest hst fun {st₁ w₁ rest} hl hrest => ?_
  have hfirst := first_adequate hl.means (hs.mono hl.grown)
  rw [← hs.trail_eq hl.grown] at hfirst
  refine Adequate.congr (hfirst.bind
    (B := fun _ u => ∃ values, Lists (trail w s) values ∧ reduced φ values = u) ?_) fun u => ?_
  · rintro x _ st₂ w₂ hl₂ ⟨r, ⟨n, hd⟩, rfl⟩ hx
    exact behind_adequate hl₂.means (Reading.lasting_fn _ _ (hl.trans hl₂).grown hf) hd
      (El.lasting_reading (.seq k) hl₂.grown hrest) hx
  · constructor
    · rintro ⟨-, -, h⟩
      exact h
    · rintro ⟨values, hvalues, hu⟩
      obtain ⟨n, r, hr⟩ := hvalues.front
      exact ⟨_, ⟨r, ⟨n, hr⟩, rfl⟩, values, hvalues, hu⟩

theorem reduce_none_iff (hquiet : ∀ id, ¬ st.Running id) :
    (∃ fuel st', Sequence.reduce? f fuel s st = .ok (none, st')) ↔
      ∃ fuel st', Sequence.toList fuel s st = .ok ([], st') := by
  constructor
  · rintro ⟨fuel, st', h⟩
    obtain ⟨w', u, -, ⟨values, hvalues, hu⟩, hread⟩ := (reduce_adequate hst hs hf).sound h
    cases El.reading_option hread
    obtain rfl := reduced_eq_none.1 hu
    obtain ⟨xs, st₁, w₁, hgives, -, hxs⟩ := hvalues.collects hst hquiet hs
    cases hxs
    obtain ⟨fuel, hrun⟩ := hgives.run
    exact ⟨fuel, st₁, hrun⟩
  · rintro ⟨fuel, st', h⟩
    obtain ⟨values, w', hvalues, -, hread⟩ := Sequence.lists_of_toList hst hs h
    cases hread
    obtain ⟨answer, st₁, w₁, hgives, -, hread⟩ :=
      (reduce_adequate hst hs hf).gives hquiet ⟨[], hvalues, rfl⟩
    cases El.reading_option hread
    obtain ⟨fuel, hrun⟩ := hgives.run
    exact ⟨fuel, st₁, hrun⟩

end Reductions

/-- Two searches that have come to an end: as many elements have been pulled for the one as for the other, and
these stand for the same values. -/
def PullsAlike (p : Fn (El k) Bool) (st : Store ι) (w : World ι) (s : Sequence k) (answer : Option (El k))
    (st₁ : Store ι) (answer' : Option (El k)) (st₂ : Store ι) : Prop :=
  ∃ xs ys values w₁ w₂, Searches p ∅ st s xs answer st₁ ∧ Searches p ∅ st s ys answer' st₂ ∧
    xs.length = ys.length ∧ st.Leads w st₁ w₁ ∧ (El.reading k).list w₁ xs values ∧
    st.Leads w st₂ w₂ ∧ (El.reading k).list w₂ ys values

theorem pullsAlike {p : Fn (El k) Bool} {q : Value k → Bool} {answer answer' : Option (El k)}
    {st₁ st₂ : Store ι} (h : Searched p q ∅ st w s answer st₁) (h' : Searched p q ∅ st w s answer' st₂) :
    PullsAlike p st w s answer st₁ answer' st₂ := by
  obtain ⟨xs, values, v, w₁, hxs, hv, hl, hread, -⟩ := h
  obtain ⟨ys, values', v', w₂, hys, hv', hl', hread', -⟩ := h'
  obtain ⟨rfl, -⟩ := hv.unique hv'
  have hlength : xs.length = ys.length :=
    (List.Forall₂.length_eq hread).trans (List.Forall₂.length_eq hread').symm
  exact ⟨xs, ys, values, w₁, w₂, hxs, hys, hlength, hl, hread, hl', hread'⟩

/-- What searching and reducing come to; `k` is the kind of the elements. -/
structure Seeks (st : Store ι) (w : World ι) (k : Kind ι) : Prop where
  find : ∀ {s : Sequence k} {p : Fn (El k) Bool} {q : Value k → Bool}, Formed w s →
    (El.reading k).fn (.same Bool) w p.apply q →
    Agree (fun fuel => Sequence.find? p fuel s) (Plan.filter (.given s) p).head st w (El.reading (.option k))
  pulls : ∀ {s : Sequence k} {p : Fn (El k) Bool} {q : Value k → Bool}, Formed w s →
    (El.reading k).fn (.same Bool) w p.apply q →
    ∀ {fuel fuel' : ℕ} {answer answer' : Option (El k)} {st₁ st₂ : Store ι},
    Sequence.find? p fuel s st = .ok (answer, st₁) →
    (Plan.filter (.given s) p).head fuel' st = .ok (answer', st₂) →
    PullsAlike p st w s answer st₁ answer' st₂
  any : ∀ (p : Fn (El k) Bool) (fuel : ℕ) (s : Sequence k),
    Sequence.any p fuel s = Option.isSome <$> Sequence.find? p fuel s
  all : ∀ (p : Fn (El k) Bool) (fuel : ℕ) (s : Sequence k),
    Sequence.all p fuel s = (! ·) <$> Sequence.any ⟨fun x => !p.apply x, p.note⟩ fuel s
  reduce : ∀ {s : Sequence k} {f : Fn (El k × El k) (El k)} {φ : Value k × Value k → Value k}, Formed w s →
    ((El.reading k).prod (El.reading k)).fn (El.reading k) w f.apply φ →
    Agree (fun fuel => Sequence.reduce? f fuel s) (fun fuel => Sequence.foldFirst f fuel s) st w
      (El.reading (.option k))
  reduceNone : ∀ {s : Sequence k} {f : Fn (El k × El k) (El k)} {φ : Value k × Value k → Value k},
    Formed w s → ((El.reading k).prod (El.reading k)).fn (El.reading k) w f.apply φ →
    ((∃ fuel st', Sequence.reduce? f fuel s st = .ok (none, st')) ↔
      ∃ fuel st', Sequence.toList fuel s st = .ok ([], st'))

theorem seeks (hst : st.Means w) (hquiet : ∀ id, ¬ st.Running id) (k : Kind ι) : Seeks st w k where
  find hs hp := (find_adequate hst hs hp).agree (filter_head_adequate hst hs hp) hquiet
  pulls hs hp _ _ _ _ _ _ h h' := pullsAlike (find_searched hp hst hs h) (filter_searched hst hs hp h')
  any := Sequence.any_eq_find
  all := Sequence.all_eq_any
  reduce hs hf := (reduce_adequate hst hs hf).agree (foldFirst_adequate hst hs hf) hquiet
  reduceNone hs hf := reduce_none_iff hst hs hf hquiet

/-- After every run of a program the loops that may stop early agree with the deferred sequences that say the
same, and reductions with folds. -/
theorem searching_lawful {program : List (Step ι)} {fuel : ℕ} {env : Env ι} {st : Store ι}
    (h : Program.run fuel program [] Store.empty = .ok (env, st)) :
    ∃ w : World ι, st.Means w ∧ (∀ id, ¬ st.Running id) ∧ (∀ r ∈ env, El.Formed w r.1 r.2) ∧
      ∀ k, Seeks st w k := by
  obtain ⟨vs, w, -, hkept⟩ := Program.run_keeps program kept_empty h
  exact ⟨w, hkept.means, hkept.quiet, formed_of_reads hkept.reads, seeks hkept.means hkept.quiet⟩

def large : Uniform (ι := Atom) (.noted (El.reading .nat) (.same Bool)) :=
  .fn El.plain_nat (Reading.plain_same Bool) (.silent fun n : Nat => decide (3 < n))

def probing : List (Step Atom) :=
  [.make (k := .nat) (.generate none) [],
   .make (k := .nat) (.filter 0 large) [0],
   .make (k := .nat) (.defer none Make.empty.producer) [],
   .next .nat 1]

theorem probing_lawful :
    Program.Answers (k := .nat) probing (.find large) 0 [] (some 4) ∧
      Program.Answers (k := .nat) probing .first 1 [] (some 4) ∧
      Program.Answers (k := .nat) probing .isEmpty 2 [] false ∧
      Program.Answers (k := .nat) probing .toVec 2 [] [] ∧
      ∃ env st, Program.run 20 probing [] Store.empty = .ok (env, st) ∧
        ∃ w : World Atom, st.Means w ∧ (∀ id, ¬ st.Running id) ∧ (∀ r ∈ env, El.Formed w r.1 r.2) ∧
          ∀ k, Seeks st w k := by
  obtain ⟨env, st, hrun⟩ : ∃ env st, Program.run 20 probing [] Store.empty = .ok (env, st) :=
    Program.run_of_isOk (by decide +kernel)
  exact ⟨⟨30, by decide +kernel⟩, ⟨30, by decide +kernel⟩, ⟨30, by decide +kernel⟩, ⟨30, by decide +kernel⟩,
    env, st, hrun, searching_lawful hrun⟩

end MemoSequence
