import MemoSequence.Proofs.Extraction
import MemoSequence.Unbounded
set_option autoImplicit false

/-!
# When an extraction returns

An extraction returns, with enough fuel, when the trail has a front: an element or the end behind
finitely many ticks. A deferred part stands behind a tick, so whatever it asks has a front behind fewer
ticks; this also is why a deferred part that is being computed is never asked again. The induction is
on the ticks, and for the same ticks on the nodes still to be visited.
-/
namespace MemoSequence
open Stream' (WSeq)
open Stream'.WSeq (think)
open Sequence (Tells Formed trail)

variable {ι : Type} [Basis ι]

section Fuel
variable {α β : Type}

/-- With enough fuel, and from then on whatever the fuel is, the run gives this answer. -/
def Gives (run : ℕ → Run ι α) (st : Store ι) (a : α) (st' : Store ι) : Prop :=
  ∃ N, ∀ n, N ≤ n → run n st = .ok (a, st')

def Returns (run : ℕ → Run ι α) (st : Store ι) : Prop := ∃ a st', Gives run st a st'

theorem gives_of_eq {run : Run ι α} {st st' : Store ι} {a : α} (h : run st = .ok (a, st')) :
    Gives (fun _ => run) st a st' := ⟨0, fun _ _ => h⟩

theorem Gives.bind {run : ℕ → Run ι α} {f : ℕ → α → Run ι β} {st st₁ st₂ : Store ι} {a : α} {b : β}
    (h : Gives run st a st₁) (hf : Gives (fun n => f n a) st₁ b st₂) :
    Gives (fun n => run n >>= f n) st b st₂ := by
  obtain ⟨N, hN⟩ := h
  obtain ⟨M, hM⟩ := hf
  refine ⟨max N M, fun n hn => ?_⟩
  exact Run.bind_eq_ok.2 ⟨a, st₁, hN n (by omega), hM n (by omega)⟩

theorem Gives.succ {run : ℕ → Run ι α} {st st' : Store ι} {a : α}
    (h : Gives (fun n => run (n + 1)) st a st') : Gives run st a st' := by
  obtain ⟨N, hN⟩ := h
  refine ⟨N + 1, fun n hn => ?_⟩
  obtain ⟨m, rfl⟩ : ∃ m, n = m + 1 := ⟨n - 1, by omega⟩
  exact hN m (by omega)

theorem Gives.run {run : ℕ → Run ι α} {st st' : Store ι} {a : α} (h : Gives run st a st') :
    ∃ n, run n st = .ok (a, st') := by
  obtain ⟨N, hN⟩ := h
  exact ⟨N, hN N le_rfl⟩

theorem Gives.unique {run : ℕ → Run ι α} {st st₁ st₂ : Store ι} {a b : α}
    (ha : Gives run st a st₁) (hb : Gives run st b st₂) : a = b ∧ st₁ = st₂ := by
  obtain ⟨N, hN⟩ := ha
  obtain ⟨M, hM⟩ := hb
  have h := (hN (max N M) (by omega)).symm.trans (hM (max N M) (by omega))
  exact Prod.mk.inj (Except.ok.inj h)

end Fuel

section Arrives
variable {α β : Type}

def Arrives (d : WSeq α) (m : ℕ) : Prop := ∃ r, d = think^[m] (front r)

theorem Arrives.unique {d : WSeq α} {m n : ℕ} (hm : Arrives d m) (hn : Arrives d n) : m = n := by
  obtain ⟨r, rfl⟩ := hm
  obtain ⟨r', h⟩ := hn
  exact (ticks_front_unique h).1

theorem Arrives.of_ticks {d : WSeq α} {j m : ℕ} (h : Arrives (think^[j] d) m) :
    ∃ n, m = j + n ∧ Arrives d n := by
  induction j generalizing m with
  | zero => exact ⟨m, (Nat.zero_add m).symm, h⟩
  | succ j ih =>
    obtain ⟨r, hr⟩ := h
    rw [Function.iterate_succ_apply'] at hr
    cases m with
    | zero => exact absurd hr.symm (front_ne_think _ _)
    | succ m =>
      rw [Function.iterate_succ_apply'] at hr
      obtain ⟨n, rfl, hn⟩ := ih ⟨r, think_injective hr⟩
      exact ⟨n, by omega, hn⟩

theorem Strict.arrives {op : WSeq α → WSeq β} (h : Strict op) {d : WSeq α} {m : ℕ}
    (hd : Arrives (op d) m) : ∃ n, n ≤ m ∧ Arrives d n := by
  obtain ⟨r, hr⟩ := hd
  obtain ⟨n, r', hn, hd⟩ := h.front_of hr
  exact ⟨n, hn, r', hd⟩

end Arrives

namespace Store
variable {st st' : Store ι} {w w' : World ι} {m n : ℕ}

/-- No front of a running cell stands behind `m` ticks or fewer. -/
def Clear (st : Store ι) (w : World ι) (m : ℕ) : Prop :=
  ∀ id, st.Running id → ∀ c, w[id]? = some c → ∀ n, Arrives c.2 n → m < n

theorem Clear.mono (h : st.Clear w m) (hn : n ≤ m) : st.Clear w n :=
  fun id hid c hc i hi => lt_of_le_of_lt hn (h id hid c hc i hi)

theorem clear_of_not_running (h : ∀ id, ¬ st.Running id) (m : ℕ) : st.Clear w m :=
  fun id hid => absurd hid (h id)

theorem Clear.leads (h : st.Clear w m) (hst : st.Means w) (hl : st.Leads w st' w') :
    st'.Clear w' m := by
  intro id hid c hc i hi
  have hrun := (hl.running id).1 hid
  obtain ⟨k, p, hcell⟩ := hrun
  obtain ⟨-, d, hd, -⟩ := hst.plan hcell
  have hsame := (World.getElem_of_grown hl.grown hd).symm.trans hc
  exact h id ⟨k, p, hcell⟩ _ (hd.trans hsame) i hi

end Store

/-- Extractions, one for each amount of fuel, that return whenever the front stands behind fewer than
`m` ticks, and no cell is running whose front does. -/
def ReturnsBelow (next : ℕ → Extraction ι) (m : ℕ) : Prop :=
  ∀ {k : Kind ι} {s : Sequence k} {st : Store ι} {w : World ι} {n : ℕ}, n < m → st.Means w →
    Formed w s → Arrives (trail w s) n → st.Clear w n → Returns (fun fuel => next fuel k s) st

namespace Plan
variable {k a : Kind ι} {next : ℕ → Extraction ι} {m : ℕ} {st : Store ι} {w : World ι}

section Asking
variable (hr : ReturnsBelow next m) (hst : st.Means w) (hclear : ∀ n, n < m → st.Clear w n)
include hr hst hclear

theorem asks_returns {β : Type} {op : Trail (Value a) → Trail (Value k)} (hop : Strict op)
    {input : Plan a} {T : Shown (Value a)} (hT : input.Means w T)
    (hd : Arrives (think (op T.trail)) m) {more : Option (El a × Sequence a) → Run ι β}
    (hmore : ∀ answer st, ∃ v st', more answer st = .ok (v, st')) :
    Returns (fun fuel => do
      let s ← Run.build input
      let answer ← next fuel a s
      more answer) st := by
  obtain ⟨n, hn, harrives⟩ := hd.of_ticks (j := 1)
  obtain ⟨i, hi, hT'⟩ := hop.arrives harrives
  obtain ⟨w₁, hl, hs, rfl⟩ := build_means hT hst
  have him : i < m := by omega
  obtain ⟨answer, st₁, hgives⟩ := hr him hl.means hs hT' ((hclear i him).leads hst hl)
  obtain ⟨v, st₂, hv⟩ := hmore answer st₁
  exact ⟨v, st₂, hgives.bind (gives_of_eq hv)⟩

theorem advance_returns (hn : ∀ fuel, (next fuel).Sound) {count : Nat} {s : Sequence k} {n : ℕ}
    (hs : Formed w s) (hlt : n < m) (hd : Arrives ((trail w s).drop count) n) :
    Returns (fun fuel => Sequence.advance (next fuel) count s) st := by
  induction count generalizing s st w n with
  | zero => exact ⟨s, st, gives_of_eq rfl⟩
  | succ count ih =>
    obtain ⟨i, hi, harrives⟩ := (strict_drop (count + 1)).arrives hd
    have him : i < m := by omega
    obtain ⟨answer, st₁, hgives⟩ := hr him hst hs harrives (hclear i him)
    obtain ⟨N, hN⟩ := hgives.run
    obtain ⟨w₁, hl, ht⟩ := hn N hN hst hs
    cases answer with
    | none => exact ⟨.empty, st₁, hgives.bind (gives_of_eq rfl)⟩
    | some p =>
      obtain ⟨x, tail⟩ := p
      obtain ⟨⟨j, hj⟩, -, htail⟩ := Sequence.tells_some.1 ht
      rw [hj, (strict_drop (count + 1)).ticks, WSeq.dropn_cons] at hd
      obtain ⟨l, hl', hrest⟩ := hd.of_ticks
      obtain ⟨v, st₂, hv⟩ := ih hl.means (fun n hn => (hclear n hn).leads hst hl) htail
        (by omega) hrest
      exact ⟨v, st₂, hgives.bind hv⟩

theorem unfold_returns (hn : ∀ fuel, (next fuel).Sound) {p : Plan k} (hp : p.Deferred)
    {d : Trail (Value k)} (hm : p.Means w ⟨"Lazy", d⟩) (hd : Arrives d m) :
    Returns (fun fuel => p.unfold (next fuel)) st := by
  cases p with
  | given s => exact hp.elim
  | cons head tail => exact hp.elim
  | append a b => exact hp.elim
  | defer note body => exact ⟨_, _, gives_of_eq rfl⟩
  | map input f =>
    obtain ⟨T, g, hT, -, he⟩ := hm
    obtain ⟨-, rfl⟩ := Shown.mk.inj he
    exact asks_returns hr hst hclear (Trail.strict_mapped g) hT hd
      fun answer st => by cases answer <;> exact ⟨_, _, rfl⟩
  | mapPlan input f note =>
    obtain ⟨T, g, hT, -, he⟩ := hm
    obtain ⟨-, rfl⟩ := Shown.mk.inj he
    exact asks_returns hr hst hclear (Trail.strict_mapped g) hT hd
      fun answer st => by cases answer <;> exact ⟨_, _, rfl⟩
  | flatten outer =>
    obtain ⟨T, hT, he⟩ := hm
    obtain ⟨-, rfl⟩ := Shown.mk.inj he
    exact asks_returns hr hst hclear Trail.strict_flattened hT hd
      fun answer st => by cases answer <;> exact ⟨_, _, rfl⟩
  | take input count =>
    obtain ⟨T, hT, he⟩ := hm
    by_cases hc : count = 0
    · simp [hc, Shown.empty] at he
    · rw [if_neg hc] at he
      obtain ⟨-, rfl⟩ := Shown.mk.inj he
      exact asks_returns hr hst hclear (Trail.strict_taken count) hT hd
        fun answer st => by cases answer <;> exact ⟨_, _, rfl⟩
  | takeWhile input p =>
    obtain ⟨T, q, hT, -, he⟩ := hm
    obtain ⟨-, rfl⟩ := Shown.mk.inj he
    refine asks_returns hr hst hclear (Trail.strict_takenWhile q) hT hd fun answer st => ?_
    cases answer with
    | none => exact ⟨_, _, rfl⟩
    | some r =>
      obtain ⟨x, tail⟩ := r
      simp only [Run.call_bind]
      cases p.apply x <;> exact ⟨_, _, rfl⟩
  | skip input count =>
    obtain ⟨T, hT, he⟩ := hm
    obtain ⟨-, rfl⟩ := Shown.mk.inj he
    obtain ⟨w₁, hl, hs, rfl⟩ := build_means hT hst
    obtain ⟨n, hmn, harrives⟩ := hd.of_ticks (j := 1)
    exact advance_returns hr hl.means (fun n hn => (hclear n hn).leads hst hl) hn hs (by omega)
      harrives
  | scan input state step =>
    obtain ⟨T, τ, R, t, g, -, hT, -, -, he⟩ := hm
    obtain ⟨-, rfl⟩ := Shown.mk.inj he
    exact asks_returns hr hst hclear (Trail.strict_scanned g t) hT hd
      fun answer st => by cases answer <;> exact ⟨_, _, rfl⟩
  | stateScan input state step =>
    obtain ⟨T, τ, R, t, g, -, hT, -, -, he⟩ := hm
    obtain ⟨-, rfl⟩ := Shown.mk.inj he
    exact asks_returns hr hst hclear (Trail.strict_scanned _ t) hT hd
      fun answer st => by cases answer <;> exact ⟨_, _, rfl⟩

end Asking

end Plan

section Turns
variable {k : Kind ι} {m : ℕ} {st : Store ι} {w : World ι}

theorem force_returns {next : ℕ → Extraction ι} (hn : ∀ fuel, (next fuel).Sound)
    (hr : ReturnsBelow next m) (hst : st.Means w) (hclear : st.Clear w m) {id : Nat}
    {d : Trail (Value k)} (hid : w[id]? = some ⟨k, d⟩) (hd : Arrives d m) :
    Returns (fun fuel => Run.force (Plan.unfold (next fuel)) k id) st := by
  have hlt : id < st.cells.size := hst.size ▸ (List.getElem?_eq_some_iff.1 hid).1
  obtain ⟨⟨kind, p, memo⟩, hcell⟩ : ∃ c, st.cells[id]? = some c :=
    ⟨_, Array.getElem?_eq_getElem hlt⟩
  obtain ⟨hp, e, he, hm⟩ := hst.plan hcell
  obtain ⟨rfl, he'⟩ := Sigma.mk.inj (Option.some.inj (hid.symm.trans he))
  obtain rfl := eq_of_heq he'
  have hfind := Store.find?_eq_some.2 hcell
  cases memo with
  | forced value => exact ⟨value, st, 0, fun fuel _ => by simp only [Run.force, hfind]⟩
  | running => exact absurd (hclear id ⟨_, _, hcell⟩ _ hid m hd) (lt_irrefl m)
  | unforced =>
    have hst₁ : (st.setMemo id p .running).Means w :=
      hst.setMemo hlt ⟨hp, d, hid, hm⟩ fun v hv => by cases hv
    have hclear₁ : ∀ n, n < m → (st.setMemo id p .running).Clear w n := by
      intro n hnm i hi c hc l hl
      rw [Store.running_setMemo hlt] at hi
      split at hi
      · next h =>
        obtain ⟨-, rfl⟩ := h
        obtain rfl := Option.some.inj (hc.symm.trans hid)
        exact lt_of_lt_of_eq hnm (hd.unique hl)
      · exact lt_trans hnm (hclear i hi c hc l hl)
    obtain ⟨v, st₂, N, hN⟩ := Plan.unfold_returns hr hst₁ hclear₁ hn hp hm hd
    refine ⟨v, st₂.setMemo id p (.forced v), N, fun fuel hfuel => ?_⟩
    simp only [Run.force, hfind, hN fuel hfuel]

theorem nodesOf_reverse (parts : List (Sequence k)) :
    Node.nodesOf parts.reverse = Node.nodesOf parts := by
  induction parts with
  | nil => rfl
  | cons s rest ih =>
    rw [List.reverse_cons, Node.nodesOf_append, ih]
    simp only [Node.nodesOf]
    omega

theorem nodesOf_contents_lt (parts : Segments (Sequence k)) :
    Node.nodesOf parts.contents < Node.nodes (.composite parts) := by
  obtain ⟨⟨front, _⟩, ⟨back, _⟩⟩ := parts
  simp only [Segments.contents, Node.nodesOf_append, nodesOf_reverse, Node.nodes]
  omega

def Turn.Nearer (w : World ι) (d : Trail (Value k)) (nodes : ℕ) : Turn k → Prop
  | .found _ => True
  | .onward current opened =>
    Formed w current ∧ Sequence.Queued w opened ∧
      ∃ j, d = think^[j] (Sequence.ahead w current opened) ∧
        (0 < j ∨ Node.nodesOf (current :: Node.pendingParts opened) < nodes)

theorem Turn.nearer_ofPending {opened : List (Segments (Sequence k))} {nodes : ℕ}
    (ho : Sequence.Queued w opened) (hn : Node.nodesOf (Node.pendingParts opened) < nodes) :
    (Turn.ofPending (Node.popPending opened)).Nearer w
      (.chained ((Node.pendingParts opened).map (trail w))) nodes := by
  have ht := Turn.tells_ofPending ho
  cases hp : Node.popPending opened with
  | none => trivial
  | some r =>
    obtain ⟨part, opened'⟩ := r
    rw [hp] at ht
    obtain ⟨⟨j, hj⟩, hc, hq⟩ := ht
    rw [Node.pendingParts_of_popPending hp] at hn
    exact ⟨hc, hq, j, hj, .inr hn⟩

theorem turn_returns {current : Sequence k} {opened : List (Segments (Sequence k))}
    (hr : ∀ n, n ≤ m → ReturnsBelow (ι := ι) (fun fuel _ s => Sequence.visit fuel s []) n)
    (hst : st.Means w) (hclear : st.Clear w m) (hc : Formed w current)
    (ho : Sequence.Queued w opened) (hd : Arrives (Sequence.ahead w current opened) m) :
    ∃ t st₁ w₁,
      Gives (fun fuel => Sequence.turn
        (Run.force (Plan.unfold fun _ s => Sequence.visit fuel s []) k) current opened) st t st₁ ∧
      st.Leads w st₁ w₁ ∧ t.Nearer w₁ (Sequence.ahead w current opened)
        (Node.nodesOf (current :: Node.pendingParts opened)) := by
  cases current with
  | empty =>
    refine ⟨_, st, w, gives_of_eq rfl, hst.leads, ?_⟩
    rw [ahead_empty]
    refine Turn.nearer_ofPending ho ?_
    simp only [Node.nodesOf, Node.nodes]
    omega
  | one head tail => exact ⟨.found _, st, w, gives_of_eq rfl, hst.leads, trivial⟩
  | composite parts =>
    refine ⟨_, st, w, gives_of_eq rfl, hst.leads, ?_⟩
    rw [ahead_composite]
    refine Turn.nearer_ofPending (queued_composite hc ho) ?_
    have hlt := nodesOf_contents_lt parts
    rw [pendingParts_composite, Node.nodesOf_append]
    simp only [Node.nodesOf]
    omega
  | generated index limit source =>
    cases hc with
    | generated hb hs =>
      obtain ⟨x, hx, -⟩ := hs index hb
      exact ⟨.found _, _, w, ⟨0, fun _ _ => turn_generated hx _ _ st⟩, hst.leads_write _, trivial⟩
  | lazy id =>
    obtain ⟨d, hid⟩ : w.Has k id := by cases hc; assumption
    have hahead : Sequence.ahead w (.lazy id) opened =
        .chained (d :: (Node.pendingParts opened).map (trail w)) := by
      rw [← World.trail_eq hid]
      rfl
    rw [hahead] at hd
    obtain ⟨n, hn, hdn⟩ := (Trail.strict_chained _).arrives hd
    obtain ⟨v, st₁, hv⟩ :=
      force_returns (fun fuel => next_sound fuel) (hr n hn) hst (hclear.mono hn) hid hdn
    obtain ⟨N, hN⟩ := hv.run
    obtain ⟨w₁, hl, hvf, j, hj⟩ := force_sound (next_sound N) hst hN
    exact ⟨.onward v opened, st₁, w₁, hv.bind (gives_of_eq rfl), hl, hvf, ho.mono hl.grown, j + 1,
      ahead_forced hl.grown ho hj, .inl (Nat.succ_pos j)⟩

theorem visit_returns (m : ℕ) {k : Kind ι} {current : Sequence k}
    {opened : List (Segments (Sequence k))} {st : Store ι} {w : World ι} (hst : st.Means w)
    (hc : Formed w current) (ho : Sequence.Queued w opened)
    (hd : Arrives (Sequence.ahead w current opened) m) (hclear : st.Clear w m) :
    Returns (fun fuel => Sequence.visit fuel current opened) st := by
  -- on the ticks before the front, and for the same ticks on the nodes still to be visited
  induction m using Nat.strong_induction_on generalizing k current opened st w with
  | h m ih =>
    have hr : ∀ n, n ≤ m →
        ReturnsBelow (ι := ι) (fun fuel _ s => Sequence.visit fuel s []) n :=
      fun n hn _ _ _ _ i hi hst hs hd hclear =>
        ih i (by omega) hst hs (Sequence.queued_nil _) hd hclear
    induction hsize : Node.nodesOf (current :: Node.pendingParts opened)
      using Nat.strong_induction_on generalizing current opened st w with
    | h size ihsize =>
      obtain ⟨t, st₁, w₁, ht, hl, hnear⟩ := turn_returns hr hst hclear hc ho hd
      cases t with
      | found answer => exact ⟨answer, st₁, (ht.bind (gives_of_eq rfl)).succ⟩
      | onward c o =>
        obtain ⟨hc', ho', j, hj, hless⟩ := hnear
        rw [hj] at hd
        obtain ⟨n, hn, hd'⟩ := hd.of_ticks
        have hclear' : st₁.Clear w₁ n := (hclear.leads hst hl).mono (by omega)
        have hmore : Returns (fun fuel => Sequence.visit fuel c o) st₁ := by
          by_cases hnm : n = m
          · subst hnm
            exact ihsize _ (by omega) hl.means hc' ho' hd' hclear' rfl
          · exact ih n (by omega) hl.means hc' ho' hd' hclear'
        obtain ⟨answer, st₂, h⟩ := hmore
        exact ⟨answer, st₂, (ht.bind h).succ⟩

theorem next_returns {s : Sequence k} (hst : st.Means w) (hs : Formed w s)
    (hd : Arrives (trail w s) m) (hclear : st.Clear w m) :
    Returns (fun fuel => Sequence.next fuel s) st :=
  visit_returns m hst hs (Sequence.queued_nil _) hd hclear

end Turns

section Next
variable {k : Kind ι} {st : Store ι} {w : World ι} {s : Sequence k} {n : ℕ}

theorem next_gives (hst : st.Means w) (hquiet : ∀ id, ¬ st.Running id) (hs : Formed w s)
    {r : Option ((Value k × String) × Trail (Value k))} (hd : trail w s = think^[n] (front r)) :
    ∃ answer st₁ w₁, Gives (fun fuel => Sequence.next fuel s) st answer st₁ ∧
      st.Leads w st₁ w₁ ∧
      answer.map (fun p => ((El.value w₁ k p.1, Node.form p.2), trail w₁ p.2)) = r ∧
      ∀ p, answer = some p → El.Formed w₁ k p.1 ∧ Formed w₁ p.2 := by
  obtain ⟨answer, st₁, ha⟩ :=
    next_returns hst hs ⟨r, hd⟩ (Store.clear_of_not_running hquiet n)
  obtain ⟨N, hN⟩ := ha.run
  obtain ⟨w₁, hl, ⟨m, hm⟩, hf⟩ := next_sound N hN hst hs
  exact ⟨answer, st₁, w₁, ha, hl, (ticks_front_unique (hm.symm.trans hd)).2, hf⟩

theorem next_gives_none (hst : st.Means w) (hquiet : ∀ id, ¬ st.Running id) (hs : Formed w s)
    (hd : trail w s = think^[n] .nil) :
    ∃ st₁ w₁, Gives (fun fuel => Sequence.next fuel s) st none st₁ ∧ st.Leads w st₁ w₁ := by
  obtain ⟨answer, st₁, w₁, ha, hl, hr, -⟩ := next_gives (r := none) hst hquiet hs hd
  obtain rfl := Option.map_eq_none_iff.1 hr
  exact ⟨st₁, w₁, ha, hl⟩

theorem next_gives_some (hst : st.Means w) (hquiet : ∀ id, ¬ st.Running id) (hs : Formed w s)
    {p : Value k × String} {d : Trail (Value k)} (hd : trail w s = think^[n] (.cons p d)) :
    ∃ x tail st₁ w₁, Gives (fun fuel => Sequence.next fuel s) st (some (x, tail)) st₁ ∧
      st.Leads w st₁ w₁ ∧ El.reading k w₁ x p.1 ∧
      El.reading (.seq k) w₁ tail ⟨p.2, d⟩ := by
  obtain ⟨answer, st₁, w₁, ha, hl, hr, hf⟩ := next_gives (r := some (p, d)) hst hquiet hs hd
  obtain ⟨⟨x, tail⟩, rfl, hp⟩ := Option.map_eq_some_iff.1 hr
  obtain ⟨rfl, rfl⟩ := Prod.mk.inj hp
  exact ⟨x, tail, st₁, w₁, ha, hl, ⟨(hf _ rfl).1, rfl⟩, (hf _ rfl).2, rfl⟩

end Next

end MemoSequence
