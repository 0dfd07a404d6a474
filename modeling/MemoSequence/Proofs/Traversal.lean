import MemoSequence.Proofs.Arrival
import MemoSequence.Consume
set_option autoImplicit false

namespace MemoSequence
open Stream'.WSeq (think)
open Sequence (Tells Formed trail)

variable {ι : Type} [Basis ι] {k : Kind ι}

/-- The run only notes something, and gives this answer. -/
def Run.Notes {α : Type} (m : Run ι α) (a : α) : Prop :=
  ∀ st, ∃ st', m st = .ok (a, st') ∧ st'.cells = st.cells ∧ st'.keeps = st.keeps

theorem Run.notes_pure {α : Type} (a : α) : Run.Notes (pure a : Run ι α) a :=
  fun st => ⟨st, rfl, rfl, rfl⟩

theorem Run.notes_call_bind {α β γ : Type} {f : Fn α β} {x : α} {more : β → Run ι γ} {c : γ}
    (h : Run.Notes (more (f.apply x)) c) : Run.Notes (Run.call f x >>= more) c := by
  intro st
  obtain ⟨st', hst', hc, hk⟩ := h (st.write (f.note x))
  exact ⟨st', hst', hc.trans (by simp), hk.trans (by simp)⟩

theorem Run.notes_test {σ : Type} (p : Fn (El k) Bool) (x : El k) (d e : ForInStep σ) :
    Run.Notes (ι := ι) (do if ← Run.call p x then return d else return e)
      (if p.apply x then d else e) := by
  refine Run.notes_call_bind ?_
  cases p.apply x <;> exact Run.notes_pure _

def decidedOf {σ τ : Type} (f : σ → τ) : ForInStep σ → ForInStep τ
  | .done a => .done (f a)
  | .yield a => .yield (f a)

theorem Sequence.traverse_map {σ τ : Type} {step : σ → El k → Run ι (ForInStep σ)}
    {step' : τ → El k → Run ι (ForInStep τ)} {f : σ → τ}
    (hstep : ∀ a x, step' (f a) x = decidedOf f <$> step a x) (fuel : ℕ) (a : σ) (s : Sequence k) :
    traverse step' fuel (f a) s = f <$> traverse step fuel a s := by
  induction fuel generalizing a s with
  | zero => rfl
  | succ fuel ih =>
    simp only [traverse, map_bind]
    refine bind_congr fun answer => ?_
    cases answer with
    | none => exact (map_pure f a).symm
    | some r =>
      simp only [hstep, bind_map_left, map_bind]
      refine bind_congr fun decided => ?_
      cases decided with
      | done b => exact (map_pure f b).symm
      | yield b => exact ih b _

section Rounds
variable {σ : Type} {step : σ → El k → Run ι (ForInStep σ)} {state state' : σ} {st st₁ st₂ : Store ι}
  {n : ℕ} {x : El k} {s tail : Sequence k}

theorem traverse_ended (h : Sequence.next n s st = .ok (none, st₁)) :
    Sequence.traverse step (n + 1) state s st = .ok (state, st₁) :=
  Run.bind_eq_ok.2 ⟨none, st₁, h, rfl⟩

theorem traverse_done (h : Sequence.next n s st = .ok (some (x, tail), st₁))
    (hstep : step state x st₁ = .ok (.done state', st₂)) :
    Sequence.traverse step (n + 1) state s st = .ok (state', st₂) :=
  Run.bind_eq_ok.2 ⟨some (x, tail), st₁, h, Run.bind_eq_ok.2 ⟨_, st₂, hstep, rfl⟩⟩

theorem traverse_yield (h : Sequence.next n s st = .ok (some (x, tail), st₁))
    (hstep : step state x st₁ = .ok (.yield state', st₂)) {r : σ × Store ι}
    (hrest : Sequence.traverse step n state' tail st₂ = .ok r) :
    Sequence.traverse step (n + 1) state s st = .ok r :=
  Run.bind_eq_ok.2 ⟨some (x, tail), st₁, h, Run.bind_eq_ok.2 ⟨_, st₂, hstep, hrest⟩⟩

end Rounds

/-- From state `t` the step comes to the end `u` on this trail. -/
inductive Drains {α τ : Type} (g : τ → α → ForInStep τ) : τ → Trail α → τ → Prop
  | nil (t : τ) (n : ℕ) : Drains g t (think^[n] .nil) t
  | done {t u : τ} {p : α × String} {d : Trail α} (n : ℕ) (h : g t p.1 = .done u) :
      Drains g t (think^[n] (.cons p d)) u
  | yield {t t' u : τ} {p : α × String} {d : Trail α} (n : ℕ) (h : g t p.1 = .yield t')
      (hd : Drains g t' d u) : Drains g t (think^[n] (.cons p d)) u

def Reading.decision {σ τ : Type} (R : Reading ι σ τ) : Reading ι (ForInStep σ) (ForInStep τ)
  | w, .done s, .done t => R w s t
  | w, .yield s, .yield t => R w s t
  | _, _, _ => False

def Reading.step {σ τ : Type} (R : Reading ι σ τ) :
    Reading ι (σ → El k → Run ι (ForInStep σ)) (τ → Value k → ForInStep τ) :=
  fun w step g => ∀ w', w <+: w' → ∀ s t x v, R w' s t → El.reading k w' x v →
    ∃ r, (step s x).Notes r ∧ R.decision w' r (g t v)

section Traverse
variable {σ τ : Type} {R : Reading ι σ τ} {step : σ → El k → Run ι (ForInStep σ)}
  {g : τ → Value k → ForInStep τ} {state : σ} {t : τ} {s : Sequence k} {st st' : Store ι}
  {w : World ι}

theorem traverse_sound (hR : R.Lasting) (hstep : R.step w step g) (hst : st.Means w)
    (hs : Formed w s) (ht : R w state t) {fuel : Nat} {result : σ}
    (h : Sequence.traverse step fuel state s st = .ok (result, st')) :
    ∃ w' u, st.Leads w st' w' ∧ Drains g t (trail w s) u ∧ R w' result u := by
  induction fuel generalizing state t s st w with
  | zero => cases h
  | succ fuel ih =>
    obtain ⟨answer, st₁, ha, h⟩ := Run.bind_eq_ok.1 h
    obtain ⟨w₁, hl, htells⟩ := next_sound fuel ha hst hs
    cases answer with
    | none =>
      obtain ⟨n, hd⟩ := Sequence.tells_none.1 htells
      obtain ⟨rfl, rfl⟩ := Run.pure_eq_ok.1 h
      exact ⟨w₁, t, hl, hd ▸ .nil t n, hR hl.grown ht⟩
    | some p =>
      obtain ⟨x, tail⟩ := p
      obtain ⟨⟨n, hd⟩, hx, htail⟩ := Sequence.tells_some.1 htells
      obtain ⟨r, hnotes, hr⟩ :=
        hstep w₁ hl.grown state t x _ (hR hl.grown ht) ⟨hx, rfl⟩
      obtain ⟨st₂, hst₂, hc, hk⟩ := hnotes st₁
      obtain ⟨r', st₂', hr', h⟩ := Run.bind_eq_ok.1 h
      obtain ⟨rfl, rfl⟩ := Prod.mk.inj (Except.ok.inj (hst₂.symm.trans hr'))
      have hl₂ := hl.trans (hl.means.leads_of_cells hc hk)
      rw [hd]
      cases r with
      | done result' =>
        obtain ⟨rfl, rfl⟩ := Run.pure_eq_ok.1 h
        cases hg : g t (El.value w₁ k x) with
        | yield u => simp [hg, Reading.decision] at hr
        | done u =>
          rw [hg] at hr
          exact ⟨w₁, u, hl₂, .done n hg, hr⟩
      | yield state' =>
        cases hg : g t (El.value w₁ k x) with
        | done u => simp [hg, Reading.decision] at hr
        | yield t' =>
          rw [hg] at hr
          obtain ⟨w', u, hl', hdr, hu⟩ :=
            ih (fun w' hw => hstep w' (hl.grown.trans hw)) hl₂.means htail hr h
          exact ⟨w', u, hl₂.trans hl', .yield n hg hdr, hu⟩

theorem traverse_returns (hR : R.Lasting) (hstep : R.step w step g) (hst : st.Means w)
    (hquiet : ∀ id, ¬ st.Running id) (hs : Formed w s) (ht : R w state t) {u : τ}
    (h : Drains g t (trail w s) u) :
    ∃ result st' w', Gives (fun fuel => Sequence.traverse step fuel state s) st result st' ∧
      st.Leads w st' w' ∧ R w' result u := by
  generalize hd : trail w s = d at h
  induction h generalizing state s st w with
  | nil t n =>
    obtain ⟨st₁, w₁, ha, hl⟩ := next_gives_none hst hquiet hs hd
    exact ⟨state, st₁, w₁, (ha.bind (gives_of_eq rfl)).succ, hl, hR hl.grown ht⟩
  | @done t u p d n hg =>
    obtain ⟨x, tail, st₁, w₁, ha, hl, hx, htail⟩ := next_gives_some hst hquiet hs hd
    obtain ⟨r, hnotes, hr⟩ := hstep w₁ hl.grown state t x p.1 (hR hl.grown ht) hx
    obtain ⟨st₂, hst₂, hc, hk⟩ := hnotes st₁
    rw [hg] at hr
    cases r with
    | yield result => simp [Reading.decision] at hr
    | done result =>
      refine ⟨result, st₂, w₁, (ha.bind ?_).succ, hl.trans (hl.means.leads_of_cells hc hk), hr⟩
      exact (gives_of_eq hst₂).bind (gives_of_eq rfl)
  | @yield t t' u p d n hg _ ih =>
    obtain ⟨x, tail, st₁, w₁, ha, hl, hx, htail⟩ := next_gives_some hst hquiet hs hd
    obtain ⟨r, hnotes, hr⟩ := hstep w₁ hl.grown state t x p.1 (hR hl.grown ht) hx
    obtain ⟨st₂, hst₂, hc, hk⟩ := hnotes st₁
    have hl₂ := hl.trans (hl.means.leads_of_cells hc hk)
    rw [hg] at hr
    cases r with
    | done result => simp [Reading.decision] at hr
    | yield state' =>
      obtain ⟨result, st₃, w₃, hgives, hl₃, hu⟩ :=
        ih (fun w' hw => hstep w' (hl.grown.trans hw)) hl₂.means
          (hl₂.quiet hquiet) htail.1 hr (congrArg Shown.trail htail.2)
      refine ⟨result, st₃, w₃, (ha.bind ?_).succ, hl₂.trans hl₃, hu⟩
      exact (gives_of_eq hst₂).bind hgives

end Traverse

/-- A run returns exactly what stands for an answer: whatever it returns does, and when nothing is being
computed it returns each of them. -/
structure Adequate {α β : Type} (run : ℕ → Run ι α) (st : Store ι) (w : World ι)
    (R : Reading ι α β) (Answers : β → Prop) : Prop where
  sound : ∀ {fuel : ℕ} {a : α} {st' : Store ι}, run fuel st = .ok (a, st') →
    ∃ w' b, st.Leads w st' w' ∧ Answers b ∧ R w' a b
  gives : (∀ id, ¬ st.Running id) → ∀ {b : β}, Answers b →
    ∃ a st' w', Gives run st a st' ∧ st.Leads w st' w' ∧ R w' a b

section Adequate
variable {s : Sequence k} {st : Store ι} {w : World ι}

def Reading.extracted (k : Kind ι) : Reading ι (Option (El k × Sequence k))
    (Option ((Value k × String) × Trail (Value k))) :=
  fun w answer r =>
    answer.map (fun p => ((El.value w k p.1, Node.form p.2), trail w p.2)) = r ∧
      ∀ p, answer = some p → El.Formed w k p.1 ∧ Formed w p.2

theorem next_adequate (hst : st.Means w) (hs : Formed w s) :
    Adequate (fun fuel => Sequence.next fuel s) st w (.extracted k)
      fun r => ∃ n, trail w s = think^[n] (front r) where
  sound h := by
    obtain ⟨w', hl, hn, hf⟩ := next_sound _ h hst hs
    exact ⟨w', _, hl, hn, rfl, hf⟩
  gives hquiet := by
    rintro r ⟨n, hd⟩
    exact next_gives hst hquiet hs hd

theorem traverse_adequate {σ τ : Type} {R : Reading ι σ τ}
    {step : σ → El k → Run ι (ForInStep σ)} {g : τ → Value k → ForInStep τ} {state : σ} {t : τ}
    (hR : R.Lasting) (hstep : R.step w step g) (hst : st.Means w) (hs : Formed w s)
    (ht : R w state t) :
    Adequate (fun fuel => Sequence.traverse step fuel state s) st w R (Drains g t (trail w s)) where
  sound h := traverse_sound hR hstep hst hs ht h
  gives hquiet _ hd := traverse_returns hR hstep hst hquiet hs ht hd

theorem Adequate.congr {α β : Type} {run : ℕ → Run ι α} {R : Reading ι α β} {A B : β → Prop}
    (h : Adequate run st w R A) (hAB : ∀ b, A b ↔ B b) : Adequate run st w R B where
  sound hrun := by
    obtain ⟨w', b, hl, hb, hread⟩ := h.sound hrun
    exact ⟨w', b, hl, (hAB b).1 hb, hread⟩
  gives hquiet _ hb := h.gives hquiet ((hAB _).2 hb)

theorem Adequate.mapped {α β γ δ : Type} {run : ℕ → Run ι α} {R : Reading ι α β} {Answers : β → Prop}
    {R' : Reading ι γ δ} (h : Adequate run st w R Answers) {f : α → γ} {g : β → δ}
    (hf : ∀ w a b, R w a b → R' w (f a) (g b)) :
    Adequate (fun fuel => do return f (← run fuel)) st w R' fun c => ∃ b, Answers b ∧ g b = c where
  sound hrun := by
    obtain ⟨a, st₁, ha, hrun⟩ := Run.bind_eq_ok.1 hrun
    obtain ⟨rfl, rfl⟩ := Run.pure_eq_ok.1 hrun
    obtain ⟨w', b, hl, hb, hr⟩ := h.sound ha
    exact ⟨w', g b, hl, ⟨b, hb, rfl⟩, hf w' a b hr⟩
  gives hquiet := by
    rintro _ ⟨b, hb, rfl⟩
    obtain ⟨a, st', w', hgives, hl, hr⟩ := h.gives hquiet hb
    exact ⟨f a, st', w', hgives.bind (gives_of_eq rfl), hl, hf w' a b hr⟩

theorem Adequate.told {α β γ : Type} {run : ℕ → Run ι α} {R : Reading ι α β} {Answers : β → Prop}
    (h : Adequate run st w R Answers) {f : α → γ} {f' : β → γ}
    (hf : ∀ w a b, R w a b → f a = f' b) :
    Adequate (fun fuel => do return f (← run fuel)) st w (.same γ)
      fun c => ∃ b, Answers b ∧ f' b = c := h.mapped hf

/-- A run followed by one that is adequate for what goes with the first answer. -/
theorem Adequate.bind {α β γ δ : Type} {run : ℕ → Run ι α} {f : ℕ → α → Run ι γ} {R : Reading ι α β}
    {R' : Reading ι γ δ} {A : β → Prop} {B : β → δ → Prop} (h : Adequate run st w R A)
    (hf : ∀ {a b st₁ w₁}, st.Leads w st₁ w₁ → A b → R w₁ a b → Adequate (f · a) st₁ w₁ R' (B b)) :
    Adequate (fun fuel => run fuel >>= f fuel) st w R' fun c => ∃ b, A b ∧ B b c where
  sound hrun := by
    obtain ⟨a, st₁, ha, hrun⟩ := Run.bind_eq_ok.1 hrun
    obtain ⟨w₁, b, hl, hb, hr⟩ := h.sound ha
    obtain ⟨w₂, c, hl₂, hc, hr₂⟩ := (hf hl hb hr).sound hrun
    exact ⟨w₂, c, hl.trans hl₂, ⟨b, hb, hc⟩, hr₂⟩
  gives hquiet := by
    rintro c ⟨b, hb, hc⟩
    obtain ⟨a, st₁, w₁, ha, hl, hr⟩ := h.gives hquiet hb
    obtain ⟨a₂, st₂, w₂, ha₂, hl₂, hr₂⟩ := (hf hl hb hr).gives (hl.quiet hquiet) hc
    exact ⟨a₂, st₂, w₂, ha.bind ha₂, hl.trans hl₂, hr₂⟩

theorem returned_adequate {α β : Type} {R : Reading ι α β} {a : α} {b : β} (hst : st.Means w)
    (h : R w a b) : Adequate (fun _ => (pure a : Run ι α)) st w R (· = b) where
  sound hrun := by
    obtain ⟨rfl, rfl⟩ := Run.pure_eq_ok.1 hrun
    exact ⟨w, b, hst.leads, rfl, h⟩
  gives _ := by
    rintro _ rfl
    exact ⟨a, st, w, gives_of_eq rfl, hst.leads, h⟩

end Adequate

end MemoSequence
