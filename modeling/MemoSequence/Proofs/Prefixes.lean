import Mathlib.Data.WSeq.Relation
import MemoSequence.Proofs.Correctness
import MemoSequence.Proofs.Finite
set_option autoImplicit false

namespace MemoSequence
open Stream' (Seq WSeq)
open Stream'.WSeq (think)
open Sequence (Formed elements trail)

section Fronts
variable {α : Type} {d e : WSeq α}

theorem destruct_front (r : Option (α × WSeq α)) : WSeq.destruct (front r) = Computation.pure r := by
  cases r with
  | none => exact WSeq.destruct_nil
  | some p => exact WSeq.destruct_cons p.1 p.2

theorem front_or_think (d : WSeq α) : (∃ r, d = front r) ∨ ∃ e, d = think e := by
  induction d using WSeq.recOn with
  | nil => exact .inl ⟨none, rfl⟩
  | cons x d => exact .inl ⟨some (x, d), rfl⟩
  | think d => exact .inr ⟨d, rfl⟩

theorem front_eq {n : ℕ} {r r' : Option (α × WSeq α)} (h : front r = think^[n] (front r')) : r = r' :=
  (ticks_front_unique (m := 0) h).2

theorem front_of_ticks {j n : ℕ} {r : Option (α × WSeq α)} (h : think^[j] d = think^[n] (front r)) :
    ∃ m, n = j + m ∧ d = think^[m] (front r) := by
  obtain ⟨m, rfl, r', rfl⟩ := Arrives.of_ticks ⟨r, h⟩
  rw [← Function.iterate_add_apply] at h
  obtain ⟨-, rfl⟩ := ticks_front_unique h
  exact ⟨m, rfl, rfl⟩

theorem mem_destruct_iff {r : Option (α × WSeq α)} :
    r ∈ WSeq.destruct d ↔ ∃ n, d = think^[n] (front r) := by
  constructor
  · intro h
    obtain ⟨n, hn⟩ := Computation.exists_results_of_mem h
    clear h
    induction n using Nat.strong_induction_on generalizing d with
    | _ n ih =>
      obtain ⟨r', rfl⟩ | ⟨e, rfl⟩ := front_or_think d
      · rw [destruct_front] at hn
        exact ⟨0, congrArg front (Computation.eq_of_pure_mem hn.mem).symm⟩
      · rw [WSeq.destruct_think] at hn
        obtain ⟨m, hm, rfl⟩ := Computation.of_results_think hn
        obtain ⟨i, rfl⟩ := ih m (Nat.lt_succ_self m) hm
        exact ⟨i + 1, (Function.iterate_succ_apply' _ _ _).symm⟩
  · rintro ⟨n, rfl⟩
    induction n with
    | zero => exact destruct_front r ▸ Computation.ret_mem r
    | succ n ih =>
      rw [Function.iterate_succ_apply', WSeq.destruct_think]
      exact Computation.think_mem ih

theorem front_of_equiv (h : d ~ʷ e) {n : ℕ} {r : Option (α × WSeq α)} (he : e = think^[n] (front r)) :
    ∃ m r', d = think^[m] (front r') ∧ WSeq.BisimO (· ~ʷ ·) r' r := by
  obtain ⟨r', hr', hrel⟩ :=
    Computation.exists_of_liftRel_right (WSeq.destruct_congr h) (mem_destruct_iff.2 ⟨n, he⟩)
  obtain ⟨m, hm⟩ := mem_destruct_iff.1 hr'
  exact ⟨m, r', hm, hrel⟩

theorem equiv_nil_iff : d ~ʷ .nil ↔ ∃ n, d = think^[n] .nil := by
  constructor
  · intro h
    obtain ⟨n, r, rfl, hr⟩ := front_of_equiv (n := 0) (r := none) h rfl
    cases r with
    | none => exact ⟨n, rfl⟩
    | some p => exact hr.elim
  · rintro ⟨n, rfl⟩
    exact ticks_equiv n _

theorem equiv_cons_iff {x : α} :
    d ~ʷ .cons x e ↔ ∃ n d', d = think^[n] (.cons x d') ∧ d' ~ʷ e := by
  constructor
  · intro h
    obtain ⟨n, r, rfl, hr⟩ := front_of_equiv (n := 0) (r := some (x, e)) h rfl
    cases r with
    | none => exact hr.elim
    | some p =>
      obtain ⟨y, d'⟩ := p
      obtain ⟨rfl, hd⟩ : y = x ∧ d' ~ʷ e := hr
      exact ⟨n, d', rfl, hd⟩
  · rintro ⟨n, d', rfl, hd⟩
    exact (ticks_equiv n _).trans (WSeq.cons_congr x hd)

end Fronts

section Alongside
variable {α : Type} {C : WSeq α → WSeq α → Prop} {d e : WSeq α}

/-- Both end, both go on with the same element, or both have a tick; what is left is related again. -/
inductive Alongside (C : WSeq α → WSeq α → Prop) : WSeq α → WSeq α → Prop
  | nil (i j : ℕ) : Alongside C (think^[i] .nil) (think^[j] .nil)
  | cons {d e : WSeq α} (i j : ℕ) (x : α) (h : C d e) :
      Alongside C (think^[i] (.cons x d)) (think^[j] (.cons x e))
  | think {d e : WSeq α} (i j : ℕ) (h : C d e) : Alongside C (think^[i + 1] d) (think^[j + 1] e)

theorem Alongside.swap (h : Alongside C d e) : Alongside (Function.swap C) e d := by
  cases h with
  | nil i j => exact .nil j i
  | cons i j x h => exact .cons j i x h
  | think i j h => exact .think j i h

theorem front_of_alongside (hC : ∀ d e, C d e → Alongside C d e) (hde : C d e) {n : ℕ}
    {r : Option (α × WSeq α)} (hd : d = think^[n] (front r)) :
    ∃ m r', e = think^[m] (front r') ∧ WSeq.BisimO C r r' := by
  induction n using Nat.strong_induction_on generalizing d e with
  | _ n ih =>
    cases hC d e hde with
    | nil i j =>
      obtain ⟨-, rfl⟩ := ticks_front_unique (r := none) hd
      exact ⟨j, none, rfl, trivial⟩
    | @cons d e i j x h =>
      obtain ⟨-, rfl⟩ := ticks_front_unique (r := some (x, d)) hd
      exact ⟨j, some (x, e), rfl, rfl, h⟩
    | @think d e i j h =>
      obtain ⟨l, rfl, hl⟩ := front_of_ticks hd
      obtain ⟨m, r', rfl, hrel⟩ := ih l (by omega) h hl
      exact ⟨j + 1 + m, r', (Function.iterate_add_apply _ _ _ _).symm, hrel⟩

theorem equiv_of_alongside (hC : ∀ d e, C d e → Alongside C d e) (hde : C d e) : d ~ʷ e := by
  refine ⟨C, hde, fun {d e} h => ⟨fun {r} hr => ?_, fun {r} hr => ?_⟩⟩
  · obtain ⟨n, hd⟩ := mem_destruct_iff.1 hr
    obtain ⟨m, r', he, hrel⟩ := front_of_alongside hC h hd
    exact ⟨r', mem_destruct_iff.2 ⟨m, he⟩, hrel⟩
  · obtain ⟨n, he⟩ := mem_destruct_iff.1 hr
    obtain ⟨m, r', hd, hrel⟩ := front_of_alongside (fun d e h => (hC e d h).swap) h he
    have hswap : WSeq.LiftRelO (Function.swap Eq) (Function.swap C) r r' :=
      WSeq.LiftRelO.imp (fun _ _ => Eq.symm) (fun _ _ => id) hrel
    rw [← WSeq.LiftRelO.swap] at hswap
    exact ⟨r', mem_destruct_iff.2 ⟨m, hd⟩, hswap⟩

end Alongside

section Starts
variable {α : Type} {d e : WSeq α} {n : ℕ} {values : List α}

/-- The first `n` elements, or all of them if there are fewer. -/
inductive Starts : WSeq α → ℕ → List α → Prop
  | enough (d : WSeq α) : Starts d 0 []
  | ended {d : WSeq α} (n : ℕ) (h : d ~ʷ .nil) : Starts d n []
  | more {d e : WSeq α} {n : ℕ} {x : α} {values : List α} (h : d ~ʷ .cons x e)
      (hm : Starts e n values) : Starts d (n + 1) (x :: values)

theorem Starts.congr (h : Starts d n values) (hde : d ~ʷ e) : Starts e n values := by
  cases h with
  | enough => exact .enough e
  | ended n h => exact .ended n (hde.symm.trans h)
  | more h hm => exact .more (hde.symm.trans h) hm

theorem starts_congr (hde : d ~ʷ e) : Starts d n values ↔ Starts e n values :=
  ⟨fun h => h.congr hde, fun h => h.congr hde.symm⟩

theorem starts_zero : Starts d 0 values ↔ values = [] := by
  constructor
  · intro h
    cases h with
    | enough => rfl
    | ended => rfl
  · rintro rfl
    exact .enough d

theorem starts_of_nil (h : d ~ʷ .nil) : Starts d n values ↔ values = [] := by
  constructor
  · intro hb
    cases hb with
    | enough => rfl
    | ended => rfl
    | more hx => exact absurd (hx.symm.trans h) (not_cons_equiv_nil _ _)
  · rintro rfl
    exact .ended n h

theorem starts_of_cons {x : α} (h : d ~ʷ .cons x e) :
    Starts d (n + 1) values ↔ ∃ more, values = x :: more ∧ Starts e n more := by
  constructor
  · intro hb
    cases hb with
    | ended _ hnil => exact absurd (h.symm.trans hnil) (not_cons_equiv_nil _ _)
    | @more _ e' _ y more hy hm =>
      obtain ⟨rfl, he⟩ := (WSeq.liftRel_cons _ _ _ _ _).1 (hy.symm.trans h)
      exact ⟨more, rfl, hm.congr he⟩
  · rintro ⟨more, rfl, hm⟩
    exact .more h hm

end Starts

namespace Trail
variable {α : Type} {d : Trail α} {n : ℕ}

theorem elements_front (r : Option ((α × String) × Trail α)) :
    elements (front r) = front (r.map fun p => (p.1.1, elements p.2)) := by
  cases r with
  | none => rfl
  | some p => exact WSeq.map_cons ..

theorem front_of_elements {r : Option (α × WSeq α)} (h : d.elements = think^[n] (front r)) :
    ∃ r', d = think^[n] (front r') ∧ r'.map (fun p => (p.1.1, elements p.2)) = r := by
  obtain ⟨m, r', -, rfl⟩ := (strict_map Prod.fst).front_of h
  rw [elements_ticks, elements_front] at h
  obtain ⟨rfl, hr⟩ := ticks_front_unique h
  exact ⟨r', rfl, hr⟩

theorem elements_equiv_nil : d.elements ~ʷ .nil ↔ ∃ n, d = think^[n] .nil := by
  rw [equiv_nil_iff]
  constructor
  · rintro ⟨n, hn⟩
    obtain ⟨r, rfl, hr⟩ := front_of_elements (r := none) hn
    obtain rfl := Option.map_eq_none_iff.1 hr
    exact ⟨n, rfl⟩
  · rintro ⟨n, rfl⟩
    exact ⟨n, elements_ticks n .nil⟩

theorem elements_equiv_cons {x : α} {e : WSeq α} :
    d.elements ~ʷ .cons x e ↔
      ∃ (n : ℕ) (form : String) (rest : Trail α),
        d = think^[n] (.cons (x, form) rest) ∧ rest.elements ~ʷ e := by
  rw [equiv_cons_iff]
  constructor
  · rintro ⟨n, d', hn, hd⟩
    obtain ⟨r, rfl, hr⟩ := front_of_elements (r := some (x, d')) hn
    obtain ⟨⟨⟨y, form⟩, rest⟩, rfl, hp⟩ := Option.map_eq_some_iff.1 hr
    obtain ⟨rfl, rfl⟩ := Prod.mk.inj hp
    exact ⟨n, form, rest, rfl, hd⟩
  · rintro ⟨n, form, rest, rfl, hd⟩
    refine ⟨n, rest.elements, ?_, hd⟩
    rw [elements_ticks]
    exact congrArg _ (elements_front (some ((x, form), rest)))

theorem elements_ticks_nil (n : ℕ) : elements (think^[n] (.nil : Trail α)) ~ʷ .nil :=
  elements_equiv_nil.2 ⟨n, rfl⟩

theorem elements_ticks_cons (n : ℕ) (x : α) (form : String) (d : Trail α) :
    elements (think^[n] (.cons (x, form) d)) ~ʷ .cons x d.elements :=
  elements_equiv_cons.2 ⟨n, form, d, rfl, .refl _⟩

end Trail

section Lists
variable {α : Type} {d : Trail α} {values : List α}

theorem lists_ticks_iff (n : ℕ) : Lists (think^[n] d) values ↔ Lists d values := by
  refine ⟨fun h => ?_, Lists.ticks n⟩
  generalize hd : think^[n] d = e at h
  cases h with
  | nil m =>
    obtain ⟨i, -, rfl⟩ := front_of_ticks (r := none) hd
    exact .nil i
  | @cons d' values m x form h =>
    obtain ⟨i, -, rfl⟩ := front_of_ticks (r := some ((x, form), d')) hd
    exact .cons i x form h

theorem lists_nil_iff : Lists (.nil : Trail α) values ↔ values = [] := by
  constructor
  · intro h
    generalize hd : (.nil : Trail α) = e at h
    cases h with
    | nil => rfl
    | @cons d' values m x form h =>
      have hfront : none = some ((x, form), d') := front_eq hd
      cases hfront
  · rintro rfl
    exact .nil 0

theorem lists_cons_iff {x : α} {form : String} :
    Lists (.cons (x, form) d) values ↔ ∃ more, values = x :: more ∧ Lists d more := by
  constructor
  · intro h
    generalize hd : (.cons (x, form) d : Trail α) = e at h
    cases h with
    | nil m =>
      have hfront : some ((x, form), d) = none := front_eq hd
      cases hfront
    | @cons d' values m y form' h =>
      have hfront : some ((x, form), d) = some ((y, form'), d') := front_eq hd
      cases hfront
      exact ⟨values, rfl, h⟩
  · rintro ⟨more, rfl, h⟩
    exact .cons_front x form h

theorem Lists.equiv_ofList (h : Lists d values) : d.elements ~ʷ .ofList values := by
  induction h with
  | nil n => exact Trail.elements_ticks_nil n
  | cons n x form _ ih =>
    rw [WSeq.ofList_cons]
    exact Trail.elements_equiv_cons.2 ⟨n, form, _, rfl, ih⟩

theorem Lists.front (h : Lists d values) : ∃ n r, d = think^[n] (front r) := by
  cases h with
  | nil n => exact ⟨n, none, rfl⟩
  | @cons d' _ n x form _ => exact ⟨n, some ((x, form), d'), rfl⟩

theorem Starts.front {count : ℕ} (h : Starts d.elements (count + 1) values) :
    ∃ n r, d = think^[n] (front r) := by
  cases h with
  | ended _ h =>
    obtain ⟨n, hd⟩ := Trail.elements_equiv_nil.1 h
    exact ⟨n, none, hd⟩
  | @more _ _ _ x _ h _ =>
    obtain ⟨n, form, rest, hd, -⟩ := Trail.elements_equiv_cons.1 h
    exact ⟨n, some ((x, form), rest), hd⟩

def Shown.taken (count : ℕ) (d : Trail α) : Shown α :=
  if count = 0 then .empty else .deferred (.taken count d)

theorem Trail.taken_cons_eq (count : ℕ) (x : α) (form : String) (d : Trail α) :
    Trail.taken (count + 1) (.cons (x, form) d) =
      .cons (x, (Shown.taken count d).form) (Shown.taken count d).trail := by
  rw [Trail.taken_cons, Shown.taken]
  by_cases h : count = 0
  · rw [if_pos h, if_pos h]
    rfl
  · rw [if_neg h, if_neg h]
    rfl

theorem lists_taken_iff {count : ℕ} :
    Lists (Shown.taken count d).trail values ↔ Starts d.elements count values := by
  induction count generalizing d values with
  | zero => exact lists_nil_iff.trans starts_zero.symm
  | succ count ih =>
    have hstrict : Strict (Trail.taken (count + 1) : Trail α → Trail α) := Trail.strict_taken _
    refine (lists_ticks_iff 1).trans ?_
    -- Neither side holds of a trail without a front.
    by_cases hfront : ∃ n r, d = think^[n] (front r)
    · obtain ⟨n, r, rfl⟩ := hfront
      rw [hstrict.ticks, lists_ticks_iff]
      cases r with
      | none =>
        refine Iff.trans ?_ (starts_of_nil (Trail.elements_ticks_nil n)).symm
        exact (Trail.taken_nil (α := α) (count + 1)).symm ▸ lists_nil_iff
      | some p =>
        obtain ⟨⟨x, form⟩, rest⟩ := p
        refine Iff.trans ?_ (starts_of_cons (Trail.elements_ticks_cons n x form rest)).symm
        simp only [MemoSequence.front, Trail.taken_cons_eq, lists_cons_iff, ih]
    · refine iff_of_false (fun h => hfront ?_) fun h => hfront h.front
      obtain ⟨n, r, hr⟩ := h.front
      obtain ⟨m, r', -, hd⟩ := hstrict.front_of hr
      exact ⟨m, r', hd⟩

end Lists

section Plans
variable {ι : Type} [Basis ι] {k : Kind ι} {p : Plan k} {S : Shown (Value k)} {st : Store ι}
  {w : World ι}

theorem Sequence.toList_adequate {s : Sequence k} (hst : st.Means w) (hs : Formed w s) :
    Adequate (fun fuel => Sequence.toList fuel s) st w (El.reading k).list (Lists (trail w s)) where
  sound h := by
    obtain ⟨values, w', hlists, hl, hread⟩ := Sequence.lists_of_toList hst hs h
    exact ⟨w', values, hl, hlists, hread⟩
  gives hquiet _ hvalues := hvalues.collects hst hquiet hs

/-- To run something on what the plan makes is as adequate as to run it on every sequence that shows as the
plan does. -/
theorem Plan.built_adequate {α β : Type} {run : Sequence k → ℕ → Run ι α} {R : Reading ι α β}
    {A : β → Prop} (hp : p.Means w S) (hst : st.Means w)
    (h : ∀ {st₁ : Store ι} {w₁ : World ι} {s : Sequence k}, st.Leads w st₁ w₁ →
      El.reading (.seq k) w₁ s S → Adequate (run s) st₁ w₁ R A) :
    Adequate (fun fuel => do run (← Run.build p) fuel) st w R A := by
  obtain ⟨w₁, hl, hs⟩ := Plan.build_means hp hst
  constructor
  · intro fuel a st' hrun
    obtain ⟨s, st₁, hbuild, hrun⟩ := Run.bind_eq_ok.1 hrun
    obtain ⟨rfl, rfl⟩ := Prod.mk.inj (Except.ok.inj hbuild)
    obtain ⟨w₂, b, hl₂, hb⟩ := (h hl hs).sound hrun
    exact ⟨w₂, b, hl.trans hl₂, hb⟩
  · intro hquiet b hb
    obtain ⟨a, st', w₂, hgives, hl₂, hread⟩ := (h hl hs).gives (hl.quiet hquiet) hb
    exact ⟨a, st', w₂, (gives_of_eq rfl).bind hgives, hl.trans hl₂, hread⟩

def Plan.listed (p : Plan k) (fuel : Nat) : Run ι (List (El k)) := do
  Sequence.toList fuel (← Run.build p)

theorem Plan.listed_adequate (hp : p.Means w S) (hst : st.Means w) :
    Adequate p.listed st w (El.reading k).list (Lists S.trail) :=
  Plan.built_adequate hp hst fun hl ⟨hs, hshown⟩ => hshown ▸ Sequence.toList_adequate hl.means hs

def Plan.firsts (p : Plan k) (count fuel : Nat) : Run ι (List (El k)) := do
  Sequence.toList fuel (← Run.build (.take p count))

theorem Plan.firsts_adequate (hst : st.Means w) (hp : p.Means w S) (count : ℕ) :
    Adequate (p.firsts count) st w (El.reading k).list (Starts S.trail.elements count) :=
  have htake : (Plan.take p count).Means w (.taken count S.trail) := ⟨S, hp, rfl⟩
  (Plan.listed_adequate htake hst).congr fun _ => lists_taken_iff

/-- What the plan makes has the elements `d`, and what is taken of it are the first of them. -/
structure Plan.HasElements (p : Plan k) (st : Store ι) (w : World ι) (d : WSeq (Value k)) : Prop where
  built : ∃ w', st.Leads w (p.build st).2 w' ∧ Formed w' (p.build st).1 ∧
    elements w' (p.build st).1 ~ʷ d
  firsts : ∀ count, Adequate (p.firsts count) st w (El.reading k).list (Starts d count)

theorem Plan.Means.hasElements (hp : p.Means w S) (hst : st.Means w) {d : WSeq (Value k)}
    (hd : S.trail.elements ~ʷ d) : p.HasElements st w d where
  built := by
    obtain ⟨w', hl, hs, hshown⟩ := Plan.build_means hp hst
    have htrail : elements w' (p.build st).1 = S.trail.elements :=
      congrArg (fun S : Shown (Value k) => S.trail.elements) hshown
    exact ⟨w', hl, hs, htrail ▸ hd⟩
  firsts count := (Plan.firsts_adequate hst hp count).congr fun _ => starts_congr hd

theorem Plan.HasElements.congr {d e : WSeq (Value k)} (h : p.HasElements st w d) (hde : d ~ʷ e) :
    p.HasElements st w e where
  built := by
    obtain ⟨w', hl, hs, hd⟩ := h.built
    exact ⟨w', hl, hs, hd.trans hde⟩
  firsts count := (h.firsts count).congr fun _ => starts_congr hde

section Agree
variable {α β : Type} {run run' : ℕ → Run ι α} {R : Reading ι α β} {A : β → Prop}

def Followed (run run' : ℕ → Run ι α) (st : Store ι) (w : World ι) (R : Reading ι α β) : Prop :=
  ∀ {fuel : ℕ} {a : α} {st₁ : Store ι}, run fuel st = .ok (a, st₁) →
    ∃ w₁ b, st.Leads w st₁ w₁ ∧ R w₁ a b ∧
      ∃ a' st₂ w₂, Gives run' st a' st₂ ∧ st.Leads w st₂ w₂ ∧ R w₂ a' b

structure Agree (run run' : ℕ → Run ι α) (st : Store ι) (w : World ι) (R : Reading ι α β) : Prop where
  forth : Followed run run' st w R
  back : Followed run' run st w R

theorem Adequate.followed (h : Adequate run st w R A) (h' : Adequate run' st w R A)
    (hquiet : ∀ id, ¬ st.Running id) : Followed run run' st w R := by
  intro fuel a st₁ hrun
  obtain ⟨w₁, b, hl, hb, hread⟩ := h.sound hrun
  exact ⟨w₁, b, hl, hread, h'.gives hquiet hb⟩

theorem Adequate.agree (h : Adequate run st w R A) (h' : Adequate run' st w R A)
    (hquiet : ∀ id, ¬ st.Running id) : Agree run run' st w R :=
  ⟨h.followed h' hquiet, h'.followed h hquiet⟩

end Agree

end Plans

end MemoSequence
