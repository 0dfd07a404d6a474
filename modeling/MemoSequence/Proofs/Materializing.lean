import MemoSequence.Proofs.Cutting
import MemoSequence.Proofs.Demand.Fuel
set_option autoImplicit false

namespace MemoSequence
open Stream' (Seq WSeq)
open Stream'.WSeq (think)
open Sequence (Formed elements trail)

def within {α : Type} (limit : Nat) (xs : List α) : Except Refusal (List α) :=
  if xs.length ≤ limit then .ok xs else .error (.limitExceeded limit)

/-- What a limit makes of a weak sequence: all elements, or the refusal if more of them arrive. -/
inductive Bounded {α : Type} (limit : ℕ) (d : WSeq α) : Except Refusal (List α) → Prop
  | all {values : List α} (h : d ~ʷ .ofList values) (hlength : values.length ≤ limit) :
      Bounded limit d (.ok values)
  | more (h : Long d (limit + 1)) : Bounded limit d (.error (.limitExceeded limit))

section WeakSequences
variable {α : Type} {d : WSeq α} {n limit : ℕ} {values : List α} {r : Except Refusal (List α)}

theorem Starts.length_le (h : Starts d n values) : values.length ≤ n := by
  induction h with
  | enough => exact le_rfl
  | ended n _ => exact Nat.zero_le n
  | more _ _ ih => exact Nat.succ_le_succ ih

theorem Starts.split (h : Starts d n values) :
    ∃ rest, d ~ʷ (WSeq.ofList values).append rest ∧ (values.length < n → rest = .nil) := by
  induction h with
  | enough d => exact ⟨d, by rw [WSeq.ofList_nil, WSeq.nil_append], fun h => absurd h (Nat.lt_irrefl 0)⟩
  | ended n hd => exact ⟨.nil, by rwa [WSeq.ofList_nil, WSeq.nil_append], fun _ => rfl⟩
  | @more d e n x values hd _ ih =>
    obtain ⟨rest, he, hrest⟩ := ih
    refine ⟨rest, ?_, fun h => hrest (Nat.lt_of_succ_lt_succ h)⟩
    rw [WSeq.ofList_cons, WSeq.cons_append]
    exact hd.trans (WSeq.cons_congr x he)

theorem bounded_iff :
    (∃ values, Starts d (limit + 1) values ∧ within limit values = r) ↔ Bounded limit d r := by
  constructor
  · rintro ⟨values, h, rfl⟩
    obtain ⟨rest, hd, hrest⟩ := h.split
    unfold within
    split
    · next hle =>
      rw [hrest (Nat.lt_succ_of_le hle), WSeq.append_nil] at hd
      exact .all hd hle
    · next hlt =>
      have hlength := h.length_le
      exact .more ⟨values, rest, by omega, hd⟩
  · rintro (⟨hd, hle⟩ | ⟨values, rest, hlength, hd⟩)
    · next values =>
      refine ⟨values, ?_, if_pos hle⟩
      have h := (starts_ofList values (limit + 1)).congr hd.symm
      rwa [List.take_of_length_le (by omega)] at h
    · refine ⟨values, ?_, if_neg (by omega)⟩
      exact hlength ▸ (starts_append values rest).congr hd.symm

end WeakSequences

section Drains
variable {α : Type} {d : Trail α} {c limit : ℕ} {seen : List α} {u : Except Refusal (List α)}
open Observation (boundedStep)

theorem boundedStep_full (h : seen.length = limit) (v : α) :
    boundedStep limit (.ok seen) v = .done (within limit (seen ++ [v])) := by
  rw [boundedStep, if_pos h, within, if_neg (by simp [h])]

theorem boundedStep_room (h : seen.length < limit) (v : α) :
    boundedStep limit (.ok seen) v = .yield (.ok (seen ++ [v])) := by
  rw [boundedStep, if_neg (by omega)]

theorem length_append_add (h : seen.length + (c + 1) = limit) (v : α) :
    (seen ++ [v]).length + c = limit := by
  rw [List.length_append, List.length_singleton]
  omega

theorem Drains.starts (h : Drains (boundedStep limit) (.ok seen) d u) (hc : seen.length + c = limit) :
    ∃ values, Starts d.elements (c + 1) values ∧ within limit (seen ++ values) = u := by
  generalize ht : Except.ok seen = t at h
  induction h generalizing seen c with
  | nil t n =>
    subst ht
    refine ⟨[], .ended _ (Trail.elements_ticks_nil n), ?_⟩
    rw [List.append_nil]
    exact if_pos (by omega)
  | @done t u p d n hg =>
    subst ht
    have hcons := Trail.elements_ticks_cons n p.1 p.2 d
    cases c with
    | succ c => rw [boundedStep_room (by omega)] at hg; cases hg
    | zero =>
      rw [boundedStep_full (by omega)] at hg
      exact ⟨[p.1], .more hcons (.enough _), ForInStep.done.inj hg⟩
  | @yield t t' u p d n hg _ ih =>
    subst ht
    have hcons := Trail.elements_ticks_cons n p.1 p.2 d
    cases c with
    | zero => rw [boundedStep_full (by omega)] at hg; cases hg
    | succ c =>
      rw [boundedStep_room (by omega)] at hg
      obtain ⟨values, hvalues, hu⟩ := ih (length_append_add hc _) (ForInStep.yield.inj hg)
      exact ⟨p.1 :: values, .more hcons hvalues, by rwa [List.append_cons]⟩

theorem drains_of_starts {values : List α} (h : Starts d.elements (c + 1) values)
    (hc : seen.length + c = limit) :
    Drains (boundedStep limit) (.ok seen) d (within limit (seen ++ values)) := by
  induction c generalizing seen d values with
  | zero =>
    obtain ⟨n, _ | ⟨⟨x, form⟩, rest⟩, rfl⟩ := h.front
    · obtain rfl := (starts_of_nil (Trail.elements_ticks_nil n)).1 h
      rw [List.append_nil, within, if_pos (by omega)]
      exact .nil _ n
    · obtain ⟨more, rfl, hm⟩ := (starts_of_cons (Trail.elements_ticks_cons n x form rest)).1 h
      obtain rfl := starts_zero.1 hm
      exact .done n (boundedStep_full hc x)
  | succ c ih =>
    obtain ⟨n, _ | ⟨⟨x, form⟩, rest⟩, rfl⟩ := h.front
    · obtain rfl := (starts_of_nil (Trail.elements_ticks_nil n)).1 h
      rw [List.append_nil, within, if_pos (by omega)]
      exact .nil _ n
    · obtain ⟨more, rfl, hm⟩ := (starts_of_cons (Trail.elements_ticks_cons n x form rest)).1 h
      rw [List.append_cons]
      exact .yield n (boundedStep_room (by omega) x) (ih hm (length_append_add hc x))

end Drains

variable {ι : Type} [Basis ι] {k : Kind ι} {st st' : Store ι} {w : World ι} {s : Sequence k} {limit : ℕ}

def Reading.orRefused {X V : Type} (R : Reading ι X V) : Reading ι (Except Refusal X) (Except Refusal V)
  | _, .error refusal, .error refusal' => refusal = refusal'
  | w, .ok x, .ok v => R w x v
  | _, _, _ => False

theorem toListBounded_adequate (hst : st.Means w) (hs : Formed w s) (limit : ℕ) :
    Adequate (fun fuel => Sequence.toListBounded limit fuel s) st w (El.reading k).list.orRefused
      (Bounded limit (elements w s)) := by
  have hinit : Reading.bounded k w (.ok #[]) (.ok []) := List.Forall₂.nil
  have hdrains : Adequate (fun fuel => Sequence.traverse (collectBounded limit) fuel (.ok #[]) s) st w
      (.bounded k) (Bounded limit (elements w s)) :=
    (traverse_adequate lasting_bounded (step_bounded limit) hst hs hinit).congr fun u => by
      refine Iff.trans ⟨fun h => ?_, ?_⟩ bounded_iff
      · exact h.starts (Nat.zero_add limit)
      · rintro ⟨values, h, rfl⟩
        exact drains_of_starts h (Nat.zero_add limit)
  have hmapped : ∀ w' a b, Reading.bounded k w' a b →
      (El.reading k).list.orRefused w' (a.map Array.toList) b := fun w' a b hread => by
    cases a <;> cases b <;> exact hread
  exact (hdrains.mapped (g := id) hmapped).congr fun _ => by simp

section Loops
variable {fuel c : ℕ} {seen all : Array (El k)} {r : Except Refusal (Array (El k))}

theorem collectBounded_full (h : seen.size = limit) (x : El k) :
    collectBounded (ι := ι) limit (.ok seen) x = return .done (.error (.limitExceeded limit)) := if_pos h

theorem collectBounded_room (h : seen.size < limit) (x : El k) :
    collectBounded (ι := ι) limit (.ok seen) x = return .yield (.ok (seen.push x)) := if_neg (by omega)

theorem within_toList (h : seen.size ≤ limit) : within limit seen.toList = .ok seen.toList :=
  if_pos (by simpa using h)

theorem within_push (h : seen.size = limit) (x : El k) :
    within limit (seen.push x).toList = .error (.limitExceeded limit) := if_neg (by simp [h])

theorem size_push_add (h : seen.size + (c + 1) = limit) (x : El k) : (seen.push x).size + c = limit := by
  rw [Array.size_push]
  omega

/-- With room for `c` more elements the loop asks as often as an extraction of `c + 1` elements. -/
theorem extract_of_bounded (hc : seen.size + c = limit)
    (h : Sequence.traverse (collectBounded limit) fuel (.ok seen) s st = .ok (r, st')) :
    ∃ xs rest, Sequence.extract fuel (c + 1) seen s st = .ok ((xs, rest), st') ∧
      r.map Array.toList = within limit xs := by
  induction fuel generalizing c seen s st with
  | zero => cases h
  | succ fuel ih =>
    obtain ⟨answer, st₁, hnext, h⟩ := Run.bind_eq_ok.1 h
    have hmore := visit_extends (Nat.le_succ fuel) s [] _ _ hnext
    cases answer with
    | none =>
      obtain ⟨rfl, rfl⟩ := Run.pure_eq_ok.1 h
      exact ⟨seen.toList, s, Run.bind_eq_ok.2 ⟨none, _, hmore, rfl⟩, (within_toList (by omega)).symm⟩
    | some p =>
      obtain ⟨x, tail⟩ := p
      cases c with
      | zero =>
        simp only [collectBounded_full hc, pure_bind] at h
        obtain ⟨rfl, rfl⟩ := Run.pure_eq_ok.1 h
        exact ⟨_, tail, Run.bind_eq_ok.2 ⟨some (x, tail), _, hmore, rfl⟩, (within_push hc x).symm⟩
      | succ c =>
        simp only [collectBounded_room (show seen.size < limit by omega), pure_bind] at h
        obtain ⟨xs, rest, hextract, hr⟩ := ih (size_push_add hc x) h
        have hmore' := extract_extends (Nat.le_succ fuel) _ _ _ _ _ hextract
        exact ⟨xs, rest, Run.bind_eq_ok.2 ⟨some (x, tail), st₁, hmore, hmore'⟩, hr⟩

theorem bounded_of_extract {xs : List (El k)} {rest : Sequence k} (hc : seen.size + c = limit)
    (h : Sequence.extract fuel (c + 1) seen s st = .ok ((xs, rest), st')) :
    ∃ r, Gives (fun fuel => Sequence.traverse (collectBounded limit) fuel (.ok seen) s) st r st' ∧
      r.map Array.toList = within limit xs := by
  induction c generalizing seen s st with
  | zero =>
    obtain ⟨answer, st₁, hnext, h⟩ := Run.bind_eq_ok.1 h
    have hgives : Gives (fun fuel => Sequence.next fuel s) st answer st₁ :=
      ⟨fuel, fun n hn => visit_extends hn s [] _ _ hnext⟩
    cases answer with
    | none =>
      obtain ⟨hxs, rfl⟩ := Run.pure_eq_ok.1 h
      obtain ⟨rfl, -⟩ := Prod.mk.inj hxs
      exact ⟨.ok seen, (hgives.bind (gives_of_eq rfl)).succ, (within_toList (by omega)).symm⟩
    | some p =>
      obtain ⟨hxs, rfl⟩ := Run.pure_eq_ok.1 h
      obtain ⟨rfl, -⟩ := Prod.mk.inj hxs
      refine ⟨.error (.limitExceeded limit), (hgives.bind ?_).succ, (within_push hc p.1).symm⟩
      simp only [collectBounded_full hc, pure_bind]
      exact gives_of_eq rfl
  | succ c ih =>
    obtain ⟨answer, st₁, hnext, h⟩ := Run.bind_eq_ok.1 h
    have hgives : Gives (fun fuel => Sequence.next fuel s) st answer st₁ :=
      ⟨fuel, fun n hn => visit_extends hn s [] _ _ hnext⟩
    cases answer with
    | none =>
      obtain ⟨hxs, rfl⟩ := Run.pure_eq_ok.1 h
      obtain ⟨rfl, -⟩ := Prod.mk.inj hxs
      exact ⟨.ok seen, (hgives.bind (gives_of_eq rfl)).succ, (within_toList (by omega)).symm⟩
    | some p =>
      obtain ⟨x, tail⟩ := p
      obtain ⟨r, hrest, hr⟩ := ih (size_push_add hc x) h
      refine ⟨r, (hgives.bind ?_).succ, hr⟩
      simp only [collectBounded_room (show seen.size < limit by omega), pure_bind]
      exact hrest

theorem size_le_of_traverse
    (h : Sequence.traverse (fun seen x => return .yield (seen.push x)) fuel seen s st = .ok (all, st')) :
    seen.size ≤ all.size := by
  induction fuel generalizing seen s st with
  | zero => cases h
  | succ fuel ih =>
    obtain ⟨answer, st₁, -, h⟩ := Run.bind_eq_ok.1 h
    cases answer with
    | none =>
      obtain ⟨rfl, -⟩ := Run.pure_eq_ok.1 h
      exact le_rfl
    | some p =>
      have hsize := ih h
      rw [Array.size_push] at hsize
      omega

/-- At every fuel the loop with a limit keeps all elements exactly where the one without a limit does and
there are at most as many as the limit. -/
theorem bounded_ok_iff (h : seen.size ≤ limit) :
    Sequence.traverse (collectBounded limit) fuel (.ok seen) s st = .ok (.ok all, st') ↔
      Sequence.traverse (fun seen x => return .yield (seen.push x)) fuel seen s st = .ok (all, st') ∧
        all.size ≤ limit := by
  induction fuel generalizing seen s st with
  | zero => exact iff_of_false nofun fun h => nomatch h.1
  | succ fuel ih =>
    have hstep : ∀ (x : El k), seen.size < limit → (seen.push x).size ≤ limit := fun x hroom => by
      rw [Array.size_push]
      omega
    constructor
    · intro hrun
      obtain ⟨answer, st₁, hnext, hrun⟩ := Run.bind_eq_ok.1 hrun
      cases answer with
      | none =>
        obtain ⟨hall, rfl⟩ := Run.pure_eq_ok.1 hrun
        obtain rfl := Except.ok.inj hall
        exact ⟨Run.bind_eq_ok.2 ⟨none, _, hnext, rfl⟩, h⟩
      | some p =>
        obtain ⟨x, tail⟩ := p
        obtain hfull | hroom := h.eq_or_lt
        · simp only [collectBounded_full hfull, pure_bind] at hrun
          obtain ⟨hall, -⟩ := Run.pure_eq_ok.1 hrun
          cases hall
        · simp only [collectBounded_room hroom, pure_bind] at hrun
          obtain ⟨hrest, hle⟩ := (ih (hstep x hroom)).1 hrun
          exact ⟨Run.bind_eq_ok.2 ⟨some (x, tail), st₁, hnext, hrest⟩, hle⟩
    · rintro ⟨hrun, hle⟩
      obtain ⟨answer, st₁, hnext, hrun⟩ := Run.bind_eq_ok.1 hrun
      cases answer with
      | none =>
        obtain ⟨rfl, rfl⟩ := Run.pure_eq_ok.1 hrun
        exact Run.bind_eq_ok.2 ⟨none, _, hnext, rfl⟩
      | some p =>
        obtain ⟨x, tail⟩ := p
        have hsize : (seen.push x).size ≤ all.size := size_le_of_traverse hrun
        rw [Array.size_push] at hsize
        have hroom : seen.size < limit := by omega
        refine Run.bind_eq_ok.2 ⟨some (x, tail), st₁, hnext, ?_⟩
        simp only [collectBounded_room hroom, pure_bind]
        exact (ih (hstep x hroom)).2 ⟨hrun, hle⟩

end Loops

/-- What collecting with a guard comes to; `k` is the kind of the elements. -/
structure Materializes (st : Store ι) (w : World ι) (k : Kind ι) : Prop where
  exact : ∀ {s : Sequence k}, Formed w s → ∀ limit,
    Adequate (fun fuel => Sequence.toListBounded limit fuel s) st w (El.reading k).list.orRefused
      (Bounded limit (elements w s))
  endless : ∀ {s : Sequence k}, Formed w s → (∀ n, Long (elements w s) n) → ∀ limit,
    ∃ st', Gives (fun fuel => Sequence.toListBounded limit fuel s) st (.error (.limitExceeded limit)) st'
  asks : ∀ (s : Sequence k) (limit : ℕ) (r : Except Refusal (List (El k))) (st' : Store ι),
    Gives (fun fuel => Sequence.toListBounded limit fuel s) st r st' ↔
      ∃ xs rest, Gives (fun fuel => Sequence.extract fuel (limit + 1) #[] s) st (xs, rest) st' ∧
        within limit xs = r
  refuses : ∀ (s : Sequence k) (fuel : ℕ), st.isUnbounded s = true →
    Sequence.tryToList fuel s st = .ok (.error .unbounded, st)
  refused : ∀ (s : Sequence k) {fuel : ℕ} {refusal : Refusal} {st' : Store ι},
    Sequence.tryToList fuel s st = .ok (.error refusal, st') → st.isUnbounded s = true
  accepts : ∀ (s : Sequence k) (fuel : ℕ) (xs : List (El k)) (st' : Store ι), st.isUnbounded s = false →
    (Sequence.tryToList fuel s st = .ok (.ok xs, st') ↔ Sequence.toList fuel s st = .ok (xs, st'))
  sufficient : ∀ (s : Sequence k) (limit fuel : ℕ) (xs : List (El k)) (st' : Store ι),
    Sequence.toListBounded limit fuel s st = .ok (.ok xs, st') ↔
      Sequence.toList fuel s st = .ok (xs, st') ∧ xs.length ≤ limit

section Laws

theorem toListBounded_of_endless (hst : st.Means w) (hquiet : ∀ id, ¬ st.Running id) (hs : Formed w s)
    (h : ∀ n, Long (elements w s) n) (limit : ℕ) :
    ∃ st', Gives (fun fuel => Sequence.toListBounded limit fuel s) st (.error (.limitExceeded limit)) st' := by
  obtain ⟨r, st', w', hgives, -, hread⟩ :=
    (toListBounded_adequate hst hs limit).gives hquiet (.more (h (limit + 1)))
  cases r with
  | ok xs => exact hread.elim
  | error refusal =>
    obtain rfl : refusal = .limitExceeded limit := hread
    exact ⟨st', hgives⟩

theorem toListBounded_gives_iff (s : Sequence k) (limit : ℕ) (r : Except Refusal (List (El k))) :
    Gives (fun fuel => Sequence.toListBounded limit fuel s) st r st' ↔
      ∃ xs rest, Gives (fun fuel => Sequence.extract fuel (limit + 1) #[] s) st (xs, rest) st' ∧
        within limit xs = r := by
  have hempty : (#[] : Array (El k)).size + limit = limit := Nat.zero_add limit
  constructor
  · intro h
    obtain ⟨fuel, hrun⟩ := h.run
    obtain ⟨seen, st₁, htraverse, hrun⟩ := Run.bind_eq_ok.1 hrun
    obtain ⟨rfl, rfl⟩ := Run.pure_eq_ok.1 hrun
    obtain ⟨xs, rest, hextract, hr⟩ := extract_of_bounded hempty htraverse
    exact ⟨xs, rest, ⟨fuel, fun n hn => extract_extends hn _ _ _ _ _ hextract⟩, hr.symm⟩
  · rintro ⟨xs, rest, h, rfl⟩
    obtain ⟨fuel, hextract⟩ := h.run
    obtain ⟨seen, hgives, hr⟩ := bounded_of_extract hempty hextract
    have hmapped : Gives (fun fuel => Sequence.toListBounded limit fuel s) st
        (seen.map Array.toList) st' := hgives.bind (gives_of_eq rfl)
    rwa [hr] at hmapped

theorem toListBounded_ok_iff (s : Sequence k) (limit fuel : ℕ) (xs : List (El k)) :
    Sequence.toListBounded limit fuel s st = .ok (.ok xs, st') ↔
      Sequence.toList fuel s st = .ok (xs, st') ∧ xs.length ≤ limit := by
  have hempty : (#[] : Array (El k)).size ≤ limit := Nat.zero_le limit
  constructor
  · intro h
    obtain ⟨seen, st₁, htraverse, h⟩ := Run.bind_eq_ok.1 h
    obtain ⟨hseen, rfl⟩ := Run.pure_eq_ok.1 h
    cases seen with
    | error refusal => cases hseen
    | ok all =>
      obtain rfl := Except.ok.inj hseen
      obtain ⟨hall, hle⟩ := (bounded_ok_iff hempty).1 htraverse
      exact ⟨Run.bind_eq_ok.2 ⟨all, _, hall, rfl⟩, by simpa using hle⟩
  · rintro ⟨h, hle⟩
    obtain ⟨all, st₁, hall, h⟩ := Run.bind_eq_ok.1 h
    obtain ⟨rfl, rfl⟩ := Run.pure_eq_ok.1 h
    exact Run.bind_eq_ok.2 ⟨.ok all, _, (bounded_ok_iff hempty).2 ⟨hall, by simpa using hle⟩, rfl⟩

theorem tryToList_of_unbounded {fuel : ℕ} (h : st.isUnbounded s = true) :
    Sequence.tryToList fuel s st = .ok (.error .unbounded, st) :=
  Run.bind_eq_ok.2 ⟨true, st, congrArg (fun b => Except.ok (b, st)) h, rfl⟩

theorem tryToList_of_bounded {fuel : ℕ} {r : Except Refusal (List (El k))} (h : st.isUnbounded s = false) :
    Sequence.tryToList fuel s st = .ok (r, st') ↔
      ∃ xs, r = .ok xs ∧ Sequence.toList fuel s st = .ok (xs, st') := by
  have hview : Run.view (·.isUnbounded s) st = .ok (false, st) := congrArg (fun b => Except.ok (b, st)) h
  constructor
  · intro hrun
    obtain ⟨b, st₁, hb, hrun⟩ := Run.bind_eq_ok.1 hrun
    obtain ⟨rfl, rfl⟩ := Prod.mk.inj (Except.ok.inj (hview.symm.trans hb))
    obtain ⟨xs, st₂, hlist, hrun⟩ := Run.bind_eq_ok.1 hrun
    obtain ⟨rfl, rfl⟩ := Run.pure_eq_ok.1 hrun
    exact ⟨xs, rfl, hlist⟩
  · rintro ⟨xs, rfl, hlist⟩
    exact Run.bind_eq_ok.2 ⟨false, st, hview, Run.bind_eq_ok.2 ⟨xs, _, hlist, rfl⟩⟩

theorem unbounded_of_refused {fuel : ℕ} {refusal : Refusal}
    (h : Sequence.tryToList fuel s st = .ok (.error refusal, st')) : st.isUnbounded s = true := by
  cases hb : st.isUnbounded s with
  | true => rfl
  | false =>
    obtain ⟨xs, hxs, -⟩ := (tryToList_of_bounded hb).1 h
    cases hxs

theorem tryToList_ok_iff {fuel : ℕ} {xs : List (El k)} (h : st.isUnbounded s = false) :
    Sequence.tryToList fuel s st = .ok (.ok xs, st') ↔ Sequence.toList fuel s st = .ok (xs, st') := by
  rw [tryToList_of_bounded h]
  constructor
  · rintro ⟨_, hxs, hlist⟩
    obtain rfl := Except.ok.inj hxs
    exact hlist
  · exact fun hlist => ⟨xs, rfl, hlist⟩

end Laws

theorem materializes (hst : st.Means w) (hquiet : ∀ id, ¬ st.Running id) (k : Kind ι) :
    Materializes st w k where
  exact hs limit := toListBounded_adequate hst hs limit
  endless hs h limit := toListBounded_of_endless hst hquiet hs h limit
  asks s limit r _ := toListBounded_gives_iff s limit r
  refuses _ _ h := tryToList_of_unbounded h
  refused _ _ _ _ h := unbounded_of_refused h
  accepts _ _ _ _ h := tryToList_ok_iff h
  sufficient s limit fuel xs _ := toListBounded_ok_iff s limit fuel xs

/-- After every run of a program a list with a limit is exact, and asks for one element more than the limit
at most; and the list that is refused to what is known to be endless is otherwise the plain one. -/
theorem materializing_exact {program : List (Step ι)} {fuel : ℕ} {env : Env ι} {st : Store ι}
    (h : Program.run fuel program [] Store.empty = .ok (env, st)) :
    ∃ w : World ι, st.Means w ∧ (∀ id, ¬ st.Running id) ∧ (∀ r ∈ env, El.Formed w r.1 r.2) ∧
      ∀ k, Materializes st w k := by
  obtain ⟨vs, w, -, hkept⟩ := Program.run_keeps program kept_empty h
  exact ⟨w, hkept.means, hkept.quiet, formed_of_reads hkept.reads, materializes hkept.means hkept.quiet⟩

def limiting : List (Step Atom) :=
  [.make (k := .nat) (.generate (some 5)) [],
   .make (k := .nat) (.skip 0 2) [0],
   .make (k := .nat) (.generate none) [],
   .make (k := .nat) (.take 0 3) [2],
   .make (k := .nat) (.concat 0 1) [1, 3],
   .next .nat 1]

theorem limiting_exact :
    Program.Answers (k := .nat) limiting (.toVecBounded 6) 4 [] (.ok [2, 3, 4, 0, 1, 2]) ∧
      Program.Answers (k := .nat) limiting (.toVecBounded 5) 4 [] (.error (.limitExceeded 5)) ∧
      ∃ env st, Program.run 20 limiting [] Store.empty = .ok (env, st) ∧
        ∃ w : World Atom, st.Means w ∧ (∀ id, ¬ st.Running id) ∧ (∀ r ∈ env, El.Formed w r.1 r.2) ∧
          ∀ k, Materializes st w k := by
  have hrun := (rfl : Program.run 20 limiting [] Store.empty = .ok (_, _))
  exact ⟨⟨30, by decide +kernel⟩, ⟨30, by decide +kernel⟩, _, _, hrun, materializing_exact hrun⟩

end MemoSequence
