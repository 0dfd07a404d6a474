import MemoSequence.Proofs.Flattening
set_option autoImplicit false

namespace MemoSequence
open Stream' (Seq WSeq)
open Stream'.WSeq (think)
open Sequence (Formed elements trail)

section Fronts
variable {α : Type} {d e : WSeq α}

/-- However long one waits, neither an element nor the end arrives. -/
def Frontless (d : WSeq α) : Prop := ∀ n, ¬ Arrives d n

theorem arrives_or_frontless (d : WSeq α) : (∃ n r, d = think^[n] (front r)) ∨ Frontless d := by
  by_cases h : ∃ n, Arrives d n
  · exact .inl h
  · exact .inr fun n hn => h ⟨n, hn⟩

theorem Frontless.think_eq (h : Frontless d) : ∃ e, d = think e ∧ Frontless e := by
  obtain ⟨r, rfl⟩ | ⟨e, rfl⟩ := front_or_think d
  · exact absurd ⟨r, rfl⟩ (h 0)
  · refine ⟨e, rfl, fun n hn => h (n + 1) ?_⟩
    obtain ⟨r, rfl⟩ := hn
    exact ⟨r, (Function.iterate_succ_apply' ..).symm⟩

theorem equiv_of_frontless (hd : Frontless d) (he : Frontless e) : d ~ʷ e := by
  refine equiv_of_alongside (C := fun d e => Frontless d ∧ Frontless e) ?_ ⟨hd, he⟩
  rintro _ _ ⟨hd, he⟩
  obtain ⟨d', rfl, hd'⟩ := hd.think_eq
  obtain ⟨e', rfl, he'⟩ := he.think_eq
  exact .think 0 0 ⟨hd', he'⟩

theorem Frontless.congr (hd : Frontless d) (h : d ~ʷ e) : Frontless e := by
  rintro n ⟨r, he⟩
  obtain ⟨m, r', hd', -⟩ := front_of_equiv h he
  exact hd m ⟨r', hd'⟩

theorem Frontless.think (h : Frontless d) : Frontless (think d) := by
  rintro n ⟨r, hr⟩
  obtain ⟨m, -, he⟩ := front_of_ticks (j := 1) hr
  exact h m ⟨r, he⟩

theorem Strict.frontless {β : Type} {op : WSeq α → WSeq β} (h : Strict op) (hd : Frontless d) :
    Frontless (op d) := by
  intro n hn
  obtain ⟨m, -, hm⟩ := h.arrives hn
  exact hd m hm

end Fronts

section Length
variable {α : Type} {d e : WSeq α} {n : ℕ}

def Long (d : WSeq α) (n : ℕ) : Prop :=
  ∃ (values : List α) (rest : WSeq α), values.length = n ∧ d ~ʷ (WSeq.ofList values).append rest

inductive HasLength : WSeq α → ℕ∞ → Prop
  | finite {d : WSeq α} (values : List α) (h : d ~ʷ .ofList values) : HasLength d values.length
  | endless {d : WSeq α} (h : ∀ n, Long d n) : HasLength d ⊤

end Length

section Drains
variable {α τ : Type} {g : τ → α → ForInStep τ} {t u : τ} {d e : Trail α}

theorem Trail.nil_of_elements {n : ℕ} (h : elements (think^[n] .nil) ~ʷ e.elements) :
    ∃ m, e = think^[m] .nil :=
  elements_equiv_nil.1 (h.symm.trans (elements_ticks_nil n))

theorem Trail.cons_of_elements {n : ℕ} {p : α × String}
    (h : elements (think^[n] (.cons p d)) ~ʷ e.elements) :
    ∃ m form rest, e = think^[m] (.cons (p.1, form) rest) ∧ d.elements ~ʷ elements rest := by
  have hcons : e.elements ~ʷ .cons p.1 d.elements :=
    h.symm.trans (elements_ticks_cons n p.1 p.2 d)
  obtain ⟨m, form, rest, he, hrest⟩ := elements_equiv_cons.1 hcons
  exact ⟨m, form, rest, he, hrest.symm⟩

theorem Drains.congr (h : Drains g t d u) (hde : d.elements ~ʷ e.elements) : Drains g t e u := by
  induction h generalizing e with
  | nil t n =>
    obtain ⟨m, rfl⟩ := Trail.nil_of_elements hde
    exact .nil t m
  | done n hg =>
    obtain ⟨m, form, rest, rfl, -⟩ := Trail.cons_of_elements hde
    exact .done m hg
  | yield n hg _ ih =>
    obtain ⟨m, form, rest, rfl, hrest⟩ := Trail.cons_of_elements hde
    exact .yield m hg (ih hrest)

theorem first_congr {β : Type} {f : α → β} {answer : Option β} (hde : d.elements ~ʷ e.elements)
    (h : ∃ r, (∃ n, d = think^[n] (front r)) ∧ r.map (fun p => f p.1.1) = answer) :
    ∃ r, (∃ n, e = think^[n] (front r)) ∧ r.map (fun p => f p.1.1) = answer := by
  obtain ⟨_ | ⟨p, d⟩, ⟨n, rfl⟩, rfl⟩ := h
  · exact ⟨none, Trail.nil_of_elements hde, rfl⟩
  · obtain ⟨m, form, rest, he, -⟩ := Trail.cons_of_elements hde
    exact ⟨some ((p.1, form), rest), ⟨m, he⟩, rfl⟩

end Drains

variable {ι : Type} [Basis ι] {k : Kind ι}

namespace Observation
variable {α : Type}

/-- Observations that go through the elements; the others look at the form of a sequence, or of its rest. -/
def Elementwise : {α : Type} → Observation k α → Prop
  | _, .next => False
  | _, .isEmpty => False
  | _, .debug => False
  | _, _ => True

theorem answers_congr {o : Observation k α} (ho : o.Elementwise) {vs : Values ι} {S T : Shown (Value k)}
    (h : S.elements ~ʷ T.elements) {answer : α} (hS : o.Answers vs S answer) : o.Answers vs T answer := by
  cases o with
  | next => exact ho.elim
  | isEmpty => exact ho.elim
  | debug => exact ho.elim
  | first => exact first_congr h hS
  | fold f start =>
    obtain ⟨u, hu, rfl⟩ := hS
    exact ⟨u, hu.congr h, rfl⟩
  | find p =>
    obtain ⟨u, hu, rfl⟩ := hS
    exact ⟨u, hu.congr h, rfl⟩
  | every p => exact Drains.congr hS h
  | some p => exact Drains.congr hS h
  | toVec =>
    obtain ⟨u, hu, rfl⟩ := hS
    exact ⟨u, hu.congr h, rfl⟩
  | toVecBounded limit =>
    obtain ⟨u, hu, rfl⟩ := hS
    exact ⟨u, hu.congr h, rfl⟩

end Observation

namespace Plan
variable {α : Type} {p p' : Plan k} {S S' : Shown (Value k)} {st st' : Store ι} {w w' : World ι}

def observe (p : Plan k) (o : Observation k α) (env : Env ι) (fuel : Nat) : Run ι α := do
  o.run env fuel (← Run.build p)

theorem observe_adequate (hp : p.Means w S) (hst : st.Means w) {env : Env ι} {vs : Values ι}
    (henv : Reading.env w env vs) (o : Observation k α) :
    Adequate (p.observe o env) st w (.same α) (o.Answers vs S) :=
  built_adequate hp hst fun hl hs => o.adequate hl.means (Reading.lasting_env hl.grown henv) hs

def Answers (p : Plan k) (o : Observation k α) (env : Env ι) (st : Store ι) (answer : α) : Prop :=
  ∃ fuel st', p.observe o env fuel st = .ok (answer, st')

/-- Two plans, each in a store of its own, that have the same elements. -/
structure SameElements (p : Plan k) (st : Store ι) (w : World ι) (p' : Plan k) (st' : Store ι)
    (w' : World ι) : Prop where
  elements : ∃ d, p.HasElements st w d ∧ p'.HasElements st' w' d
  answers : ∀ {env env' : Env ι} {vs : Values ι}, Reading.env w env vs → Reading.env w' env' vs →
    ∀ {α : Type} (o : Observation k α), o.Elementwise →
      ∀ answer, p.Answers o env st answer ↔ p'.Answers o env' st' answer

theorem Answers.of_elements (hp : p.Means w S) (hp' : p'.Means w' S') (hst : st.Means w)
    (hst' : st'.Means w') (hquiet' : ∀ id, ¬ st'.Running id) (h : S.elements ~ʷ S'.elements)
    {env env' : Env ι} {vs : Values ι} (henv : Reading.env w env vs) (henv' : Reading.env w' env' vs)
    {o : Observation k α} (ho : o.Elementwise) {answer : α} (ha : p.Answers o env st answer) :
    p'.Answers o env' st' answer := by
  obtain ⟨fuel, st₁, ha⟩ := ha
  obtain ⟨w₁, b, -, hb, rfl⟩ := (observe_adequate hp hst henv o).sound ha
  obtain ⟨c, st₂, w₂, hgives, -, rfl⟩ :=
    (observe_adequate hp' hst' henv' o).gives hquiet' (Observation.answers_congr ho h hb)
  obtain ⟨fuel', hrun⟩ := hgives.run
  exact ⟨fuel', st₂, hrun⟩

theorem sameElements_of_means (hp : p.Means w S) (hp' : p'.Means w' S') (hst : st.Means w)
    (hquiet : ∀ id, ¬ st.Running id) (hst' : st'.Means w') (hquiet' : ∀ id, ¬ st'.Running id)
    (h : S.elements ~ʷ S'.elements) : p.SameElements st w p' st' w' where
  elements := ⟨S'.elements, hp.hasElements hst h, hp'.hasElements hst' (.refl _)⟩
  answers henv henv' _ _ ho _ :=
    ⟨.of_elements hp hp' hst hst' hquiet' h henv henv' ho,
      .of_elements hp' hp hst' hst hquiet h.symm henv' henv ho⟩

end Plan

end MemoSequence
