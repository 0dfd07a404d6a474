import MemoSequence.Proofs.PlanMeaning
import MemoSequence.Next
set_option autoImplicit false

namespace MemoSequence
open Stream'.WSeq (think)

variable {ι : Type} [Basis ι]

namespace Run
variable {α β : Type}

theorem bind_eq_ok {m : Run ι α} {f : α → Run ι β} {st st' : Store ι} {b : β} :
    (m >>= f) st = .ok (b, st') ↔ ∃ a st₁, m st = .ok (a, st₁) ∧ f a st₁ = .ok (b, st') := by
  change Run.bind m f st = _ ↔ _
  unfold Run.bind
  cases hm : m st with
  | error halt => simp
  | ok r =>
    obtain ⟨a, st₁⟩ := r
    simp

theorem pure_eq_ok {a b : α} {st st' : Store ι} :
    (pure a : Run ι α) st = .ok (b, st') ↔ a = b ∧ st = st' := by
  change Except.ok (a, st) = _ ↔ _
  simp

theorem map_eq_ok {m : Run ι α} {f : α → β} {st st' : Store ι} {b : β} :
    (do return f (← m)) st = .ok (b, st') ↔ ∃ a, m st = .ok (a, st') ∧ f a = b := by
  rw [bind_eq_ok]
  constructor
  · rintro ⟨a, st₁, ha, h⟩
    obtain ⟨hb, rfl⟩ := pure_eq_ok.1 h
    exact ⟨a, ha, hb⟩
  · rintro ⟨a, ha, hb⟩
    exact ⟨a, st', ha, pure_eq_ok.2 ⟨hb, rfl⟩⟩

theorem write_bind (note : Option Note) (f : Unit → Run ι β) (st : Store ι) :
    (Run.write note >>= f) st = f () (st.write note) := rfl

theorem build_bind {k : Kind ι} (p : Plan k) (f : Sequence k → Run ι β) (st : Store ι) :
    (Run.build p >>= f) st = f (p.build st).1 (p.build st).2 := rfl

theorem call_bind {γ : Type} (g : Fn α γ) (x : α) (f : γ → Run ι β) (st : Store ι) :
    (Run.call g x >>= f) st = f (g.apply x) (st.write (g.note x)) := rfl

end Run

namespace Store
variable {st st' : Store ι} {w : World ι} {k : Kind ι}

@[simp] theorem cells_write (st : Store ι) (note : Option Note) :
    (st.write note).cells = st.cells := by
  cases note <;> rfl

@[simp] theorem keeps_write (st : Store ι) (note : Option Note) :
    (st.write note).keeps = st.keeps := by
  cases note <;> rfl

theorem Means.leads_write (h : st.Means w) (note : Option Note) :
    st.Leads w (st.write note) w := h.leads_of_cells (by simp) (by simp)

theorem find?_eq_some {id : Nat} {p : Plan k} {m : Memo (Sequence k)} :
    st.find? k id = some (p, m) ↔ st.cells[id]? = some ⟨k, p, m⟩ := by
  unfold find?
  cases hc : st.cells[id]? with
  | none => simp
  | some cell =>
    obtain ⟨kind, plan, memo⟩ := cell
    by_cases h : kind = k
    · subst h
      simp
    · simp [h]

theorem peek?_eq_some {id : Nat} {v : Sequence k} :
    st.peek? k id = some v ↔ ∃ p, st.cells[id]? = some ⟨k, p, .forced v⟩ := by
  simp only [← find?_eq_some, peek?, Option.bind_eq_some_iff]
  constructor
  · rintro ⟨⟨p, m⟩, hfind, hm⟩
    cases m with
    | unforced => cases hm
    | running => cases hm
    | forced value => exact ⟨p, Option.some.inj hm ▸ hfind⟩
  · rintro ⟨p, hfind⟩
    exact ⟨_, hfind, rfl⟩

theorem Means.kept (h : st.Means w) {id : Nat} {v : Sequence k} (hv : st.peek? k id = some v) :
    Sequence.Formed w v ∧ ∃ j, w.trail k id = think^[j + 1] (Sequence.trail w v) := by
  obtain ⟨p, hc⟩ := peek?_eq_some.1 hv
  exact h.result hc

theorem getElem?_setMemo {id : Nat} {p : Plan k} {m : Memo (Sequence k)} (hid : id < st.cells.size)
    (j : Nat) :
    (st.setMemo id p m).cells[j]? =
      if st.keeps = true ∧ id = j then some ⟨k, p, m⟩ else st.cells[j]? := by
  unfold setMemo
  by_cases hk : st.keeps = true
  · simp only [hk, if_true, true_and]
    rw [Array.getElem?_setIfInBounds]
    by_cases hj : id = j
    · simp [hj, hj ▸ hid]
    · simp [hj]
  · simp [hk]

@[simp] theorem keeps_setMemo (id : Nat) (p : Plan k) (m : Memo (Sequence k)) :
    (st.setMemo id p m).keeps = st.keeps := by
  unfold setMemo
  split <;> rfl

@[simp] theorem size_setMemo (id : Nat) (p : Plan k) (m : Memo (Sequence k)) :
    (st.setMemo id p m).cells.size = st.cells.size := by
  unfold setMemo
  split <;> simp

/-- A memo may be set to a result that has the trail of its cell, and to no result at all. -/
theorem Means.setMemo (h : st.Means w) {id : Nat} {p : Plan k} {m : Memo (Sequence k)}
    (hid : id < st.cells.size)
    (hp : p.Deferred ∧ ∃ d, w[id]? = some ⟨k, d⟩ ∧ p.Means w ⟨"Lazy", d⟩)
    (hm : ∀ v, m = .forced v →
      Sequence.Formed w v ∧ ∃ j, w.trail k id = think^[j + 1] (Sequence.trail w v)) :
    (st.setMemo id p m).Means w where
  size := by rw [size_setMemo, h.size]
  plan hc := by
    rw [getElem?_setMemo hid] at hc
    split at hc
    · next hj =>
      obtain ⟨-, rfl⟩ := hj
      cases hc
      exact hp
    · exact h.plan hc
  result hc := by
    rw [getElem?_setMemo hid] at hc
    split at hc
    · next hj =>
      obtain ⟨-, rfl⟩ := hj
      cases hc
      exact hm _ rfl
    · exact h.result hc

theorem running_setMemo {id : Nat} {p : Plan k} {m : Memo (Sequence k)} (hid : id < st.cells.size)
    (j : Nat) :
    (st.setMemo id p m).Running j ↔
      if st.keeps = true ∧ id = j then m = .running else st.Running j := by
  unfold Running
  rw [getElem?_setMemo hid]
  split
  · constructor
    · rintro ⟨k', p', h⟩
      cases h
      rfl
    · rintro rfl
      exact ⟨k, p, rfl⟩
  · rfl

end Store

namespace Sequence
variable {w w' : World ι} {k : Kind ι}

/-- An answer tells the front of a trail: the value of the first element with the form of what is left,
and the trail of what is left. -/
def Tells (w : World ι) (d : Trail (Value k)) (answer : Option (El k × Sequence k)) : Prop :=
  (∃ n, d = think^[n] (front (answer.map fun p =>
    ((El.value w k p.1, Node.form p.2), trail w p.2)))) ∧
  ∀ p, answer = some p → El.Formed w k p.1 ∧ Formed w p.2

theorem tells_none {d : Trail (Value k)} :
    Tells w d none ↔ ∃ n, d = think^[n] .nil := by
  simp [Tells, front]

theorem tells_some {d : Trail (Value k)} {x : El k} {tail : Sequence k} :
    Tells w d (some (x, tail)) ↔
      (∃ n, d = think^[n] (.cons (El.value w k x, Node.form tail) (trail w tail))) ∧
        El.Formed w k x ∧ Formed w tail := by
  simp [Tells, front]

theorem Tells.ticks {d : Trail (Value k)} {answer : Option (El k × Sequence k)}
    (h : Tells w d answer) (j : ℕ) : Tells w (think^[j] d) answer := by
  obtain ⟨⟨n, rfl⟩, hf⟩ := h
  exact ⟨⟨j + n, (Function.iterate_add_apply _ _ _ _).symm⟩, hf⟩

end Sequence

open Sequence (Tells Formed trail)

def Extraction.Sound (next : Extraction ι) : Prop :=
  ∀ {k : Kind ι} {s : Sequence k} {st st' : Store ι} {w : World ι}
    {answer : Option (El k × Sequence k)},
    next k s st = .ok (answer, st') → st.Means w → Formed w s →
      ∃ w', st.Leads w st' w' ∧ Tells w' (trail w s) answer

namespace Plan
variable {k a b : Kind ι} {next : Extraction ι} {st st₁ st' : Store ι} {w w₁ : World ι}

theorem asks_sound {β : Type} (hn : next.Sound) {input : Plan a} {T : Shown (Value a)}
    {more : Option (El a × Sequence a) → Run ι β} {v : β} (hT : input.Means w T) (hst : st.Means w)
    (h : (do
      let s ← Run.build input
      let answer ← next a s
      more answer : Run ι β) st = .ok (v, st')) :
    ∃ answer st₁ w₁, st.Leads w st₁ w₁ ∧ Tells w₁ T.trail answer ∧
      more answer st₁ = .ok (v, st') := by
  rw [Run.build_bind] at h
  obtain ⟨answer, st₁, ha, h⟩ := Run.bind_eq_ok.1 h
  obtain ⟨w₀, hl, hs, rfl⟩ := build_means hT hst
  obtain ⟨w₁, hl', ht⟩ := hn ha hl.means hs
  exact ⟨answer, st₁, w₁, hl.trans hl', ht, h⟩

def Makes (st : Store ι) (w : World ι) (st' : Store ι) (v : Sequence k) (S : Shown (Value k)) :
    Prop :=
  ∃ w', st.Leads w st' w' ∧ El.reading (.seq k) w' v S

theorem makes_build (hl : st.Leads w st₁ w₁) {p : Plan k} {S : Shown (Value k)} {v : Sequence k}
    (h : Run.build p st₁ = .ok (v, st')) (hp : p.Means w₁ S) : Makes st w st' v S := by
  obtain ⟨w', hl', hv⟩ := build_means hp hl.means
  rw [Except.ok.inj h] at hl' hv
  exact ⟨w', hl.trans hl', hv⟩

def Unfolds (st : Store ι) (w : World ι) (st' : Store ι) (v : Sequence k) (d : Trail (Value k)) :
    Prop :=
  ∃ S : Shown (Value k), Makes st w st' v S ∧ ∃ j, d = think^[j + 1] S.trail

variable {v : Sequence k}

theorem asks_unfolds (hn : next.Sound) {op : Trail (Value a) → Trail (Value k)} (hop : Strict op)
    (hnil : op .nil = .nil) {input : Plan a} {T : Shown (Value a)} (hT : input.Means w T)
    (hst : st.Means w) {more : Option (El a × Sequence a) → Run ι (Sequence k)}
    (hnone : more none = pure .empty)
    (h : (do
      let s ← Run.build input
      let answer ← next a s
      more answer : Run ι (Sequence k)) st = .ok (v, st'))
    (hsome : ∀ {x : El a} {tail : Sequence a} {st₁ : Store ι} {w₁ : World ι}, st.Leads w st₁ w₁ →
      El.Formed w₁ a x → Formed w₁ tail → more (some (x, tail)) st₁ = .ok (v, st') →
      ∃ S, Makes st w st' v S ∧
        ∃ i, op (.cons (El.value w₁ a x, Node.form tail) (trail w₁ tail)) = think^[i] S.trail) :
    Unfolds st w st' v (think (op T.trail)) := by
  obtain ⟨answer, st₁, w₁, hl, ht, h⟩ := asks_sound hn hT hst h
  cases answer with
  | none =>
    obtain ⟨n, hd⟩ := Sequence.tells_none.1 ht
    rw [hnone] at h
    obtain ⟨rfl, rfl⟩ := Run.pure_eq_ok.1 h
    refine ⟨.empty, ⟨w₁, hl, .empty, rfl⟩, n, ?_⟩
    rw [hd, hop.ticks, hnil, Function.iterate_succ_apply']
    rfl
  | some p =>
    obtain ⟨x, tail⟩ := p
    obtain ⟨⟨n, hd⟩, hx, htail⟩ := Sequence.tells_some.1 ht
    obtain ⟨S, hm, i, hi⟩ := hsome hl hx htail h
    refine ⟨S, hm, n + i, ?_⟩
    rw [hd, hop.ticks, hi, Function.iterate_succ_apply', Function.iterate_add_apply]

theorem advance_sound (hn : next.Sound) {count : Nat} {s : Sequence k}
    (h : Sequence.advance next count s st = .ok (v, st')) (hst : st.Means w) (hs : Formed w s) :
    ∃ w', st.Leads w st' w' ∧ Formed w' v ∧
      ∃ j, (trail w s).drop count = think^[j] (trail w' v) := by
  induction count generalizing s st w with
  | zero =>
    obtain ⟨rfl, rfl⟩ := Run.pure_eq_ok.1 h
    exact ⟨w, hst.leads, hs, 0, rfl⟩
  | succ count ih =>
    obtain ⟨answer, st₁, ha, h⟩ := Run.bind_eq_ok.1 h
    obtain ⟨w₁, hl, ht⟩ := hn ha hst hs
    cases answer with
    | none =>
      obtain ⟨n, hd⟩ := Sequence.tells_none.1 ht
      obtain ⟨rfl, rfl⟩ := Run.pure_eq_ok.1 h
      refine ⟨w₁, hl, .empty, n, ?_⟩
      rw [hd, (strict_drop (count + 1)).ticks, Stream'.WSeq.dropn_nil]
      rfl
    | some p =>
      obtain ⟨x, tail⟩ := p
      obtain ⟨⟨n, hd⟩, -, htail⟩ := Sequence.tells_some.1 ht
      obtain ⟨w', hl', hv, j, hj⟩ := ih h hl.means htail
      refine ⟨w', hl.trans hl', hv, n + j, ?_⟩
      rw [hd, (strict_drop (count + 1)).ticks, Stream'.WSeq.dropn_cons, hj,
        Function.iterate_add_apply]

section Forms
variable (hn : next.Sound) (hst : st.Means w) {d : Trail (Value k)}
include hn hst

theorem unfold_map_sound {input : Plan a} {f : Fn (El a) (El k)}
    (hm : (Plan.map input f).Means w ⟨"Lazy", d⟩)
    (h : (Plan.map input f).unfold next st = .ok (v, st')) : Unfolds st w st' v d := by
  obtain ⟨T, g, hT, hg, hd⟩ := hm
  obtain ⟨-, rfl⟩ := Shown.mk.inj hd
  refine asks_unfolds hn (Trail.strict_mapped g) (Trail.mapped_nil g) hT hst rfl h ?_
  intro x tail st₁ w₁ hl hx htail h
  have hy := hg w₁ hl.grown x _ ⟨hx, rfl⟩
  have hrest : (Plan.map (.given tail) f).Means w₁ (.deferred (.mapped g (trail w₁ tail))) :=
    ⟨_, g, ⟨htail, rfl⟩, Reading.lasting_fn _ _ hl.grown hg, rfl⟩
  have hm := makes_build (hl.trans (hl.means.leads_write _)) h ⟨_, _, hy, hrest, rfl⟩
  exact ⟨_, hm, 0, Trail.mapped_cons _ _ _ _⟩

theorem unfold_flatten_sound {outer : Plan (.seq k)}
    (hm : (Plan.flatten outer).Means w ⟨"Lazy", d⟩)
    (h : (Plan.flatten outer).unfold next st = .ok (v, st')) : Unfolds st w st' v d := by
  obtain ⟨T, hT, hd⟩ := hm
  obtain ⟨-, rfl⟩ := Shown.mk.inj hd
  refine asks_unfolds hn Trail.strict_flattened Trail.flattened_nil hT hst rfl h ?_
  intro inner rest st₁ w₁ hl hinner hrest h
  have hm := makes_build hl h ⟨_, _, ⟨hinner, rfl⟩, ⟨_, ⟨hrest, rfl⟩, rfl⟩, rfl⟩
  refine ⟨_, hm, 1, ?_⟩
  rw [Trail.flattened_cons, Shown.trail_concat_deferred]
  · rfl
  · intro he
    rw [(Node.form_eq_empty inner).1 he]
    rfl

theorem unfold_take_sound {input : Plan k} {count : Nat}
    (hm : (Plan.take input count).Means w ⟨"Lazy", d⟩)
    (h : (Plan.take input count).unfold next st = .ok (v, st')) : Unfolds st w st' v d := by
  obtain ⟨T, hT, hd⟩ := hm
  cases count with
  | zero => simp [Shown.empty] at hd
  | succ n =>
    obtain ⟨-, rfl⟩ := Shown.mk.inj hd
    refine asks_unfolds hn (Trail.strict_taken _) (Trail.taken_nil _) hT hst rfl h ?_
    intro x tail st₁ w₁ hl hx htail h
    have hm := makes_build hl h ⟨_, _, ⟨hx, rfl⟩, ⟨_, ⟨htail, rfl⟩, rfl⟩, rfl⟩
    refine ⟨_, hm, 0, (Trail.taken_cons n _ _ _).trans ?_⟩
    cases n <;> rfl

theorem unfold_takeWhile_sound {input : Plan k} {p : Fn (El k) Bool}
    (hm : (Plan.takeWhile input p).Means w ⟨"Lazy", d⟩)
    (h : (Plan.takeWhile input p).unfold next st = .ok (v, st')) : Unfolds st w st' v d := by
  obtain ⟨T, q, hT, hq, hd⟩ := hm
  obtain ⟨-, rfl⟩ := Shown.mk.inj hd
  refine asks_unfolds hn (Trail.strict_takenWhile q) (Trail.takenWhile_nil q) hT hst rfl h ?_
  intro x tail st₁ w₁ hl hx htail h
  have hy : p.apply x = q (El.value w₁ k x) := hq w₁ hl.grown x _ ⟨hx, rfl⟩
  have hl' := hl.trans (hl.means.leads_write (p.note x))
  have hcons := Trail.takenWhile_cons q (El.value w₁ k x) (Node.form tail) (trail w₁ tail)
  rw [← hy] at hcons
  simp only [Run.call_bind] at h
  cases hb : p.apply x with
  | true =>
    simp only [hb, if_true] at h hcons
    have hm := makes_build hl' h
      ⟨_, _, ⟨hx, rfl⟩, ⟨_, q, ⟨htail, rfl⟩, Reading.lasting_fn _ _ hl.grown hq, rfl⟩, rfl⟩
    exact ⟨_, hm, 0, hcons⟩
  | false =>
    simp only [hb] at h hcons
    obtain ⟨rfl, rfl⟩ := Run.pure_eq_ok.1 h
    exact ⟨.empty, ⟨w₁, hl', .empty, rfl⟩, 0, hcons⟩

theorem unfold_skip_sound {input : Plan k} {count : Nat}
    (hm : (Plan.skip input count).Means w ⟨"Lazy", d⟩)
    (h : (Plan.skip input count).unfold next st = .ok (v, st')) : Unfolds st w st' v d := by
  obtain ⟨T, hT, hd⟩ := hm
  obtain ⟨-, rfl⟩ := Shown.mk.inj hd
  obtain ⟨w₁, hl, hs, rfl⟩ := build_means hT hst
  obtain ⟨w', hl', hv, j, hj⟩ := advance_sound hn h hl.means hs
  refine ⟨Sequence.shown w' v, ⟨w', hl.trans hl', hv, rfl⟩, j, ?_⟩
  rw [Function.iterate_succ_apply']
  exact congrArg think hj

theorem unfold_scan_sound {σ : Type} {input : Plan a} {state : σ} {step : Fn (σ × El a) (El k × σ)}
    (hm : (Plan.scan input state step).Means w ⟨"Lazy", d⟩)
    (h : (Plan.scan input state step).unfold next st = .ok (v, st')) : Unfolds st w st' v d := by
  obtain ⟨T, τ, R, t, g, hR, hT, hs, hg, hd⟩ := hm
  obtain ⟨-, rfl⟩ := Shown.mk.inj hd
  refine asks_unfolds hn (Trail.strict_scanned g t) (Trail.scanned_nil g t) hT hst rfl h ?_
  intro x tail st₁ w₁ hl hx htail h
  obtain ⟨hy, hs'⟩ := hg w₁ hl.grown (state, x) (t, _) ⟨hR hl.grown hs, hx, rfl⟩
  have hrest : (Plan.scan (.given tail) (step.apply (state, x)).2 step).Means w₁
      (.deferred (.scanned g (g (t, El.value w₁ a x)).2 (trail w₁ tail))) :=
    ⟨_, τ, R, _, g, hR, ⟨htail, rfl⟩, hs', Reading.lasting_fn _ _ hl.grown hg, rfl⟩
  have hm := makes_build (hl.trans (hl.means.leads_write _)) h ⟨_, _, hy, hrest, rfl⟩
  exact ⟨_, hm, 0, Trail.scanned_cons _ _ _ _ _⟩

end Forms

section FormsOfSequences
variable (hn : next.Sound) (hst : st.Means w) {u : Sequence (.seq k)}
  {d : Trail (Value (.seq k))}
include hn hst

theorem unfold_mapPlan_sound {input : Plan a} {f : El a → Plan k} {note : El a → Option Note}
    (hm : (Plan.mapPlan input f note).Means w ⟨"Lazy", d⟩)
    (h : (Plan.mapPlan input f note).unfold next st = .ok (u, st')) : Unfolds st w st' u d := by
  obtain ⟨T, g, hT, hg, hd⟩ := hm
  obtain ⟨-, rfl⟩ := Shown.mk.inj hd
  refine asks_unfolds hn (Trail.strict_mapped g) (Trail.mapped_nil g) hT hst rfl h ?_
  intro x tail st₁ w₁ hl hx htail h
  have hy := hg w₁ hl.grown x _ ⟨hx, rfl⟩
  have hrest : (Plan.mapPlan (.given tail) f note).Means w₁
      (.deferred (.mapped g (trail w₁ tail))) :=
    ⟨_, g, ⟨htail, rfl⟩, fun w' hw => hg w' (hl.grown.trans hw), rfl⟩
  have hl₁ := hl.means.leads_write (note x)
  obtain ⟨w₂, hl₂, hinner⟩ := build_means hy hl₁.means
  have hm := makes_build ((hl.trans hl₁).trans hl₂) h
    ⟨_, _, hinner, hrest.mono hl₂.grown, rfl⟩
  exact ⟨_, hm, 0, Trail.mapped_cons _ _ _ _⟩

theorem unfold_stateScan_sound {σ : Type} {input : Plan a} {state : σ}
    {step : Fn (σ × El a) (List (El k) × σ)}
    (hm : (Plan.stateScan input state step).Means w ⟨"Lazy", d⟩)
    (h : (Plan.stateScan input state step).unfold next st = .ok (u, st')) :
    Unfolds st w st' u d := by
  obtain ⟨T, τ, R, t, g, hR, hT, hs, hg, hd⟩ := hm
  obtain ⟨-, rfl⟩ := Shown.mk.inj hd
  refine asks_unfolds hn (Trail.strict_scanned _ t) (Trail.scanned_nil _ t) hT hst rfl h ?_
  intro x tail st₁ w₁ hl hx htail h
  obtain ⟨hy, hs'⟩ := hg w₁ hl.grown (state, x) (t, _) ⟨hR hl.grown hs, hx, rfl⟩
  have hrest : (Plan.stateScan (.given tail) (step.apply (state, x)).2 step).Means w₁
      (.deferred (.scanned (fun x => (Shown.ofList (g x).1, (g x).2))
        (g (t, El.value w₁ a x)).2 (trail w₁ tail))) :=
    ⟨_, τ, R, _, g, hR, ⟨htail, rfl⟩, hs', Reading.lasting_fn _ _ hl.grown hg, rfl⟩
  have hm := makes_build (hl.trans (hl.means.leads_write _)) h
    ⟨_, _, Sequence.reading_ofList hy, hrest, rfl⟩
  exact ⟨_, hm, 0, Trail.scanned_cons _ _ _ _ _⟩

end FormsOfSequences

theorem unfold_sound (hn : next.Sound) {p : Plan k} (hp : p.Deferred) {d : Trail (Value k)}
    (hm : p.Means w ⟨"Lazy", d⟩) (hst : st.Means w) (h : p.unfold next st = .ok (v, st')) :
    Unfolds st w st' v d := by
  cases p with
  | given s => exact hp.elim
  | cons head tail => exact hp.elim
  | append a b => exact hp.elim
  | defer note body =>
    obtain ⟨T, hT, hd⟩ := hm
    obtain ⟨-, rfl⟩ := Shown.mk.inj hd
    exact ⟨T, makes_build (hst.leads_write note) h hT, 0, rfl⟩
  | map input f => exact unfold_map_sound hn hst hm h
  | mapPlan input f note => exact unfold_mapPlan_sound hn hst hm h
  | flatten outer => exact unfold_flatten_sound hn hst hm h
  | take input count => exact unfold_take_sound hn hst hm h
  | takeWhile input p => exact unfold_takeWhile_sound hn hst hm h
  | skip input count => exact unfold_skip_sound hn hst hm h
  | scan input state step => exact unfold_scan_sound hn hst hm h
  | stateScan input state step => exact unfold_stateScan_sound hn hst hm h

end Plan

section Turns
variable {k : Kind ι} {next : Extraction ι} {st st' : Store ι} {w : World ι}

/-- Forcing finds the result that is kept, or computes it and keeps it. -/
theorem force_cases {unfold : {k : Kind ι} → Plan k → Run ι (Sequence k)} {id : Nat}
    {v : Sequence k} (h : Run.force unfold k id st = .ok (v, st')) :
    ∃ p, st.cells[id]? = some ⟨k, p, .forced v⟩ ∧ st' = st ∨
      st.cells[id]? = some ⟨k, p, .unforced⟩ ∧
        ∃ st₁, unfold p (st.setMemo id p .running) = .ok (v, st₁) ∧
          st' = st₁.setMemo id p (.forced v) := by
  unfold Run.force at h
  cases hf : st.find? k id with
  | none => simp [hf] at h
  | some cell =>
    obtain ⟨p, memo⟩ := cell
    have hc := Store.find?_eq_some.1 hf
    rw [hf] at h
    cases memo with
    | forced value =>
      obtain ⟨rfl, rfl⟩ := Prod.mk.inj (Except.ok.inj h)
      exact ⟨p, .inl ⟨hc, rfl⟩⟩
    | running => simp at h
    | unforced =>
      cases hu : unfold p (st.setMemo id p .running) with
      | error halt => simp [hu] at h
      | ok r =>
        obtain ⟨value, st₁⟩ := r
        simp only [hu] at h
        obtain ⟨rfl, rfl⟩ := Prod.mk.inj (Except.ok.inj h)
        exact ⟨p, .inr ⟨hc, st₁, hu, rfl⟩⟩

/-- A result that has the trail of its cell, behind at least one tick less, may be kept in it. -/
theorem leads_forced (hst : st.Means w) {id : Nat} {p : Plan k} {v : Sequence k} {st₁ : Store ι}
    {w' : World ι} (hc : st.cells[id]? = some ⟨k, p, .unforced⟩)
    (hl : (st.setMemo id p .running).Leads w st₁ w') (hv : Formed w' v) {j : ℕ}
    (hj : w.trail k id = think^[j + 1] (trail w' v)) :
    st.Leads w (st₁.setMemo id p (.forced v)) w' := by
  have hid : id < st.cells.size := (Array.getElem?_eq_some_iff.1 hc).1
  obtain ⟨hp, d, hd, hm⟩ := hst.plan hc
  have hid₁ : id < st₁.cells.size := by
    rw [hl.means.size]
    exact (List.getElem?_eq_some_iff.1 (World.getElem_of_grown hl.grown hd)).1
  refine ⟨hl.grown, ?_, ?_, ?_⟩
  · refine hl.means.setMemo hid₁
      ⟨hp, d, World.getElem_of_grown hl.grown hd, hm.mono hl.grown⟩ ?_
    rintro v ⟨⟩
    exact ⟨hv, j, (World.Has.trail_eq hl.grown ⟨d, hd⟩).symm.trans hj⟩
  · intro i
    have hk : st₁.keeps = st.keeps := by rw [hl.keeps, Store.keeps_setMemo]
    rw [Store.running_setMemo hid₁, hk, hl.running, Store.running_setMemo hid]
    split
    · next hi =>
      obtain ⟨-, rfl⟩ := hi
      simp [Store.Running, hc]
    · rfl
  · rw [Store.keeps_setMemo, hl.keeps, Store.keeps_setMemo]

theorem means_running (hst : st.Means w) {id : Nat} {p : Plan k} {m : Memo (Sequence k)}
    (hc : st.cells[id]? = some ⟨k, p, m⟩) : (st.setMemo id p .running).Means w :=
  hst.setMemo (Array.getElem?_eq_some_iff.1 hc).1 (hst.plan hc) fun v hv => by cases hv

theorem force_sound (hn : next.Sound) (hst : st.Means w) {id : Nat} {v : Sequence k}
    (h : Run.force (Plan.unfold next) k id st = .ok (v, st')) :
    ∃ w', st.Leads w st' w' ∧ Formed w' v ∧ ∃ j, w.trail k id = think^[j + 1] (trail w' v) := by
  obtain ⟨p, ⟨hc, rfl⟩ | ⟨hc, st₁, hu, rfl⟩⟩ := force_cases h
  · obtain ⟨hv, j, hj⟩ := hst.result hc
    exact ⟨w, hst.leads, hv, j, hj⟩
  obtain ⟨hp, d, hd, hm⟩ := hst.plan hc
  obtain ⟨S, ⟨w', hl, hv, rfl⟩, j, hj⟩ := Plan.unfold_sound hn hp hm (means_running hst hc) hu
  have hresult : w.trail k id = think^[j + 1] (trail w' v) := by
    rw [World.trail_eq hd, hj]
    rfl
  exact ⟨w', leads_forced hst hc hl hv hresult, hv, j, hresult⟩

/-- A turn has come to an answer that tells the front of `d`, or goes on with what has the trail `d` up
to ticks that are used up. -/
def Turn.Tells (w : World ι) (d : Trail (Value k)) : Turn k → Prop
  | .found answer => Sequence.Tells w d answer
  | .onward current opened =>
    (∃ j, d = think^[j] (Sequence.ahead w current opened)) ∧ Formed w current ∧
      Sequence.Queued w opened

theorem Turn.tells_ofPending {opened : List (Segments (Sequence k))}
    (ho : Sequence.Queued w opened) :
    (Turn.ofPending (Node.popPending opened)).Tells w
      (.chained ((Node.pendingParts opened).map (trail w))) := by
  cases hp : Node.popPending opened with
  | none =>
    rw [Node.pendingParts_of_popPending_none hp]
    exact Sequence.tells_none.2 ⟨0, rfl⟩
  | some r =>
    obtain ⟨part, opened'⟩ := r
    have hparts := Node.pendingParts_of_popPending hp
    have hq : ∀ s ∈ part :: Node.pendingParts opened', s ≠ .empty ∧ Formed w s := by
      rw [← hparts]
      exact ho
    rw [hparts]
    exact ⟨⟨0, rfl⟩, (hq part (List.mem_cons_self ..)).2,
      fun s hs => hq s (List.mem_cons_of_mem _ hs)⟩

theorem tells_reattach {x : El k} {tail : Sequence k} {opened : List (Segments (Sequence k))}
    (hx : El.Formed w k x) (htail : Formed w tail) (ho : Sequence.Queued w opened) :
    Tells w
      (.chained (.cons (El.value w k x, Node.form tail) (trail w tail) ::
        (Node.pendingParts opened).map (trail w)))
      (some (x, Node.reattach tail opened)) := by
  refine Sequence.tells_some.2 ⟨⟨0, ?_⟩, hx, Node.Formed.reattach htail ho⟩
  have hform := Node.form_reattach tail opened
  have htrail := Node.trail_reattach (w.trail k) (El.value w k) tail ho
  rw [Trail.chained_cons_cons, Function.iterate_zero, id_eq, hform]
  simp only [List.map_eq_nil_iff]
  exact congrArg (Stream'.WSeq.cons _) htrail.symm

theorem ahead_forced {w' : World ι} (hw : w <+: w') {id j : Nat} {v : Sequence k}
    {opened : List (Segments (Sequence k))} (ho : Sequence.Queued w opened)
    (hj : w.trail k id = think^[j] (trail w' v)) :
    Sequence.ahead w (.lazy id) opened = think^[j] (Sequence.ahead w' v opened) := by
  have hrest : (Node.pendingParts opened).map (trail w) =
      (Node.pendingParts opened).map (trail w') :=
    List.map_congr_left fun s hs => (ho s hs).2.trail_eq hw
  change Trail.chained (w.trail k id :: (Node.pendingParts opened).map (trail w)) = _
  rw [hj, hrest, (Trail.strict_chained _).ticks]
  rfl

theorem pendingParts_composite (parts : Segments (Sequence k))
    (opened : List (Segments (Sequence k))) :
    Node.pendingParts (parts :: opened.dropWhile Segments.isEmpty) =
      parts.contents ++ Node.pendingParts opened := by
  rw [← Node.pendingParts_dropWhile opened]
  rfl

theorem queued_composite {parts : Segments (Sequence k)} {opened : List (Segments (Sequence k))}
    (hc : Formed w (.composite parts : Sequence k)) (ho : Sequence.Queued w opened) :
    Sequence.Queued w (parts :: opened.dropWhile Segments.isEmpty) := by
  intro s hs
  rw [pendingParts_composite, List.mem_append] at hs
  exact hs.elim (Node.Formed.queued hc s) (ho s)

theorem ahead_composite (parts : Segments (Sequence k))
    (opened : List (Segments (Sequence k))) :
    Sequence.ahead w (.composite parts) opened =
      .chained ((Node.pendingParts (parts :: opened.dropWhile Segments.isEmpty)).map (trail w)) := by
  rw [pendingParts_composite, List.map_append, ← Trail.chained_chained]
  unfold Sequence.ahead Node.ahead
  rw [Node.trail_composite]
  rfl

theorem ahead_empty (opened : List (Segments (Sequence k))) :
    Sequence.ahead w .empty opened = .chained ((Node.pendingParts opened).map (trail w)) :=
  Trail.chained_nil_cons _

theorem turn_generated {index : Nat} {limit : Option Nat} {source : Source (El k)} {x : El k}
    (hx : source.at? index = some x) (force : Nat → Run ι (Sequence k))
    (opened : List (Segments (Sequence k))) (st : Store ι) :
    Sequence.turn force (.generated index limit source) opened st =
      .ok (.found (some (x, Node.reattach (Node.following index limit source) opened)),
        st.write (source.note index)) := by
  simp only [Sequence.turn, hx, Run.write_bind]
  rfl

/-- What one turn of the loop preserves: the trail of what is still to come. -/
theorem turn_sound {force : Nat → Run ι (Sequence k)}
    (hforce : ∀ {id : Nat} {v : Sequence k} {st' : Store ι}, force id st = .ok (v, st') →
      ∃ w', st.Leads w st' w' ∧ Formed w' v ∧ ∃ j, w.trail k id = think^[j + 1] (trail w' v))
    (hst : st.Means w) {current : Sequence k} {opened : List (Segments (Sequence k))}
    (hc : Formed w current) (ho : Sequence.Queued w opened) {t : Turn k}
    (h : Sequence.turn force current opened st = .ok (t, st')) :
    ∃ w', st.Leads w st' w' ∧ t.Tells w' (Sequence.ahead w current opened) := by
  cases current with
  | empty =>
    obtain ⟨rfl, rfl⟩ := Run.pure_eq_ok.1 h
    exact ⟨w, hst.leads, ahead_empty opened ▸ Turn.tells_ofPending ho⟩
  | one head tail =>
    obtain ⟨rfl, rfl⟩ := Run.pure_eq_ok.1 h
    cases hc with
    | one hx htail => exact ⟨w, hst.leads, tells_reattach hx htail ho⟩
  | composite parts =>
    obtain ⟨rfl, rfl⟩ := Run.pure_eq_ok.1 h
    have ht := Turn.tells_ofPending (queued_composite hc ho)
    exact ⟨w, hst.leads, ahead_composite parts opened ▸ ht⟩
  | generated index limit source =>
    have hrest := Node.Formed.following hc
    cases hc with
    | generated hb hs =>
      obtain ⟨x, hx, hxf⟩ := hs index hb
      rw [turn_generated hx] at h
      obtain ⟨rfl, rfl⟩ := Prod.mk.inj (Except.ok.inj h)
      refine ⟨w, hst.leads_write _, ?_⟩
      have ht := tells_reattach hxf hrest ho
      have hd : Node.trail (w.trail k) (El.value w k) (.generated index limit source) =
          .cons (El.value w k x, Node.form (Node.following index limit source))
            (trail w (Node.following index limit source)) := by
        rw [Node.trail, Source.trail_of_below hb hx, Node.form_following]
        exact congrArg _ (Node.trail_following ..).symm
      unfold Sequence.ahead Node.ahead
      rwa [hd]
  | lazy id =>
    obtain ⟨v, st₁, hv, h⟩ := Run.bind_eq_ok.1 h
    obtain ⟨rfl, rfl⟩ := Run.pure_eq_ok.1 h
    obtain ⟨w', hl, hvf, j, hj⟩ := hforce hv
    exact ⟨w', hl, ⟨j + 1, ahead_forced hl.grown ho hj⟩, hvf, ho.mono hl.grown⟩

theorem visit_sound (fuel : Nat) {k : Kind ι} {current : Sequence k}
    {opened : List (Segments (Sequence k))} {st st' : Store ι} {w : World ι}
    {answer : Option (El k × Sequence k)}
    (h : Sequence.visit fuel current opened st = .ok (answer, st')) (hst : st.Means w)
    (hc : Formed w current) (ho : Sequence.Queued w opened) :
    ∃ w', st.Leads w st' w' ∧ Tells w' (Sequence.ahead w current opened) answer := by
  -- what an unfolded plan asks of its input runs with less fuel, so it is covered by `ih`
  induction fuel generalizing k current opened st st' w answer with
  | zero => cases h
  | succ fuel ih =>
    obtain ⟨t, st₁, ht, h⟩ := Run.bind_eq_ok.1 h
    have hn : Extraction.Sound (ι := ι) fun _ s => Sequence.visit fuel s [] :=
      fun h hst hs => ih h hst hs (Sequence.queued_nil _)
    obtain ⟨w₁, hl, hd⟩ := turn_sound (force_sound hn hst) hst hc ho ht
    cases t with
    | found found =>
      obtain ⟨rfl, rfl⟩ := Run.pure_eq_ok.1 h
      exact ⟨w₁, hl, hd⟩
    | onward current' opened' =>
      obtain ⟨⟨j, hj⟩, hc', ho'⟩ := hd
      obtain ⟨w', hl', htells⟩ := ih h hl.means hc' ho'
      exact ⟨w', hl.trans hl', hj ▸ htells.ticks j⟩

theorem next_sound (fuel : Nat) : Extraction.Sound (ι := ι) fun _ s => Sequence.next fuel s :=
  fun h hst hs => visit_sound fuel h hst hs (Sequence.queued_nil _)

end Turns

end MemoSequence
