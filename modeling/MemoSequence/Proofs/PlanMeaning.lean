import MemoSequence.Proofs.Meaning
import MemoSequence.Store
set_option autoImplicit false

namespace MemoSequence
open Stream'.WSeq (think)

variable {ι : Type} [Basis ι]

namespace Plan

/-- What a plan shows. Its functions have to read as functions on values. -/
def Means : {k : Kind ι} → Plan k → World ι → Shown (Value k) → Prop
  | k, .given s, w, S => El.reading (.seq k) w s S
  | k, .cons head tail, w, S =>
    ∃ v T, El.reading k w head v ∧ Means tail w T ∧ S = .cons v T
  | _, .append a b, w, S => ∃ A B, Means a w A ∧ Means b w B ∧ S = A.concat B
  | _, .defer _ body, w, S => ∃ T, Means (body ()) w T ∧ S = .deferred T.trail
  | b, .map (a := a) input f, w, S =>
    ∃ T g, Means input w T ∧ (El.reading a).fn (El.reading b) w f.apply g ∧
      S = .deferred (.mapped g T.trail)
  | _, .mapPlan (a := a) input f _, w, S =>
    ∃ T g, Means input w T ∧
      (∀ w', w <+: w' → ∀ x v, El.reading a w' x v → Means (f x) w' (g v)) ∧
      S = .deferred (.mapped g T.trail)
  | _, .flatten outer, w, S => ∃ T, Means outer w T ∧ S = .deferred (.flattened T.trail)
  | _, .take input count, w, S =>
    ∃ T, Means input w T ∧ S = if count = 0 then .empty else .deferred (.taken count T.trail)
  | k, .takeWhile input p, w, S =>
    ∃ T q, Means input w T ∧ (El.reading k).fn (.same Bool) w p.apply q ∧
      S = .deferred (.takenWhile q T.trail)
  | _, .skip input count, w, S => ∃ T, Means input w T ∧ S = .deferred (T.trail.drop count)
  | b, .scan (a := a) (σ := σ) input state step, w, S =>
    ∃ (T : _) (τ : Type) (R : Reading ι σ τ) (t : τ) (g : τ × Value a → Value b × τ),
      R.Lasting ∧ Means input w T ∧ R w state t ∧
      (R.prod (El.reading a)).fn ((El.reading b).prod R) w step.apply g ∧
      S = .deferred (.scanned g t T.trail)
  | _, .stateScan (a := a) (b := b) (σ := σ) input state step, w, S =>
    ∃ (T : _) (τ : Type) (R : Reading ι σ τ) (t : τ) (g : τ × Value a → List (Value b) × τ),
      R.Lasting ∧ Means input w T ∧ R w state t ∧
      (R.prod (El.reading a)).fn ((Reading.list (El.reading b)).prod R) w step.apply g ∧
      S = .deferred (.scanned (fun x => (Shown.ofList (g x).1, (g x).2)) t T.trail)

theorem Means.mono {k : Kind ι} {p : Plan k} {w w' : World ι} (hw : w <+: w')
    {S : Shown (Value k)} (h : p.Means w S) : p.Means w' S := by
  induction p generalizing w w' with
  | given s => exact El.lasting_reading _ hw h
  | cons head tail ih =>
    obtain ⟨v, T, hv, hT, rfl⟩ := h
    exact ⟨v, T, El.lasting_reading _ hw hv, ih hw hT, rfl⟩
  | append a b iha ihb =>
    obtain ⟨A, B, hA, hB, rfl⟩ := h
    exact ⟨A, B, iha hw hA, ihb hw hB, rfl⟩
  | defer note body ih =>
    obtain ⟨T, hT, rfl⟩ := h
    exact ⟨T, ih () hw hT, rfl⟩
  | map input f ih =>
    obtain ⟨T, g, hT, hg, rfl⟩ := h
    exact ⟨T, g, ih hw hT, Reading.lasting_fn _ _ hw hg, rfl⟩
  | mapPlan input f note ih _ =>
    obtain ⟨T, g, hT, hg, rfl⟩ := h
    exact ⟨T, g, ih hw hT, fun w'' hw' => hg w'' (hw.trans hw'), rfl⟩
  | flatten outer ih =>
    obtain ⟨T, hT, rfl⟩ := h
    exact ⟨T, ih hw hT, rfl⟩
  | take input count ih =>
    obtain ⟨T, hT, rfl⟩ := h
    exact ⟨T, ih hw hT, rfl⟩
  | takeWhile input p ih =>
    obtain ⟨T, q, hT, hq, rfl⟩ := h
    exact ⟨T, q, ih hw hT, Reading.lasting_fn _ _ hw hq, rfl⟩
  | skip input count ih =>
    obtain ⟨T, hT, rfl⟩ := h
    exact ⟨T, ih hw hT, rfl⟩
  | scan input state step ih =>
    obtain ⟨T, τ, R, t, g, hR, hT, ht, hg, rfl⟩ := h
    exact ⟨T, τ, R, t, g, hR, ih hw hT, hR hw ht, Reading.lasting_fn _ _ hw hg, rfl⟩
  | stateScan input state step ih =>
    obtain ⟨T, τ, R, t, g, hR, hT, ht, hg, rfl⟩ := h
    exact ⟨T, τ, R, t, g, hR, ih hw hT, hR hw ht, Reading.lasting_fn _ _ hw hg, rfl⟩

def reading (k : Kind ι) : Reading ι (Plan k) (Shown (Value k)) := fun w p S => p.Means w S

def Deferred {k : Kind ι} : Plan k → Prop
  | .given _ | .cons _ _ | .append _ _ => False
  | _ => True

end Plan

namespace Store

def Running (st : Store ι) (id : Nat) : Prop := ∃ k p, st.cells[id]? = some ⟨k, p, .running⟩

/-- Every cell stands for the trail that the world gives to it. -/
structure Means (st : Store ι) (w : World ι) : Prop where
  size : st.cells.size = w.length
  plan : ∀ {id : Nat} {k : Kind ι} {p : Plan k} {m : Memo (Sequence k)},
    st.cells[id]? = some ⟨k, p, m⟩ → p.Deferred ∧ ∃ d, w[id]? = some ⟨k, d⟩ ∧ p.Means w ⟨"Lazy", d⟩
  result : ∀ {id : Nat} {k : Kind ι} {p : Plan k} {v : Sequence k},
    st.cells[id]? = some ⟨k, p, .forced v⟩ →
      Sequence.Formed w v ∧ ∃ j, w.trail k id = think^[j + 1] (Sequence.trail w v)

/-- From one store and world to another: the world has grown, and the same cells are running. -/
structure Leads (st : Store ι) (w : World ι) (st' : Store ι) (w' : World ι) : Prop where
  grown : w <+: w'
  means : st'.Means w'
  running : ∀ id, st'.Running id ↔ st.Running id
  keeps : st'.keeps = st.keeps

variable {st st' : Store ι} {w w' : World ι} {k : Kind ι}

theorem Means.leads (h : st.Means w) : st.Leads w st w := ⟨List.prefix_rfl, h, fun _ => Iff.rfl, rfl⟩

theorem Leads.trans {st'' : Store ι} {w'' : World ι} (h : st.Leads w st' w')
    (h' : st'.Leads w' st'' w'') : st.Leads w st'' w'' :=
  ⟨h.grown.trans h'.grown, h'.means, fun id => (h'.running id).trans (h.running id),
    h'.keeps.trans h.keeps⟩

theorem Leads.quiet (h : st.Leads w st' w') (hquiet : ∀ id, ¬ st.Running id) (id : Nat) :
    ¬ st'.Running id := mt (h.running id).1 (hquiet id)

theorem means_empty (keeps : Bool) (journal : Array Note) :
    (⟨#[], journal, keeps⟩ : Store ι).Means [] where
  size := rfl
  plan h := by simp at h
  result h := by simp at h

theorem not_running_empty (keeps : Bool) (journal : Array Note) (id : Nat) :
    ¬ (⟨#[], journal, keeps⟩ : Store ι).Running id := by
  simp [Running]

theorem Means.of_cells (h : st.Means w) (hc : st'.cells = st.cells) : st'.Means w where
  size := hc ▸ h.size
  plan := by rw [hc]; exact h.plan
  result := by rw [hc]; exact h.result

theorem running_of_cells (hc : st'.cells = st.cells) (id : Nat) : st'.Running id ↔ st.Running id := by
  rw [Running, Running, hc]

theorem running_alloc (p : Plan k) (id : Nat) : (st.alloc p).2.Running id ↔ st.Running id := by
  simp only [Running, Store.alloc, Array.getElem?_push]
  split
  · next hid =>
    subst hid
    simp
  · rfl

theorem Means.leads_of_cells (h : st.Means w) (hc : st'.cells = st.cells)
    (hk : st'.keeps = st.keeps) : st.Leads w st' w :=
  ⟨List.prefix_rfl, h.of_cells hc, running_of_cells hc, hk⟩

theorem Means.alloc (h : st.Means w) {p : Plan k} (hp : p.Deferred) {d : Trail (Value k)}
    (hm : p.Means w (.deferred d)) :
    ∃ w', st.Leads w (st.alloc p).2 w' ∧
      El.reading (.seq k) w' (st.alloc p).1 (.deferred d) := by
  have hw : w <+: w ++ [⟨k, think d⟩] := List.prefix_append _ _
  have hnew : (w ++ [⟨k, think d⟩])[st.cells.size]? = some ⟨k, think d⟩ := by
    rw [h.size]
    exact List.getElem?_concat_length
  have hold : ∀ (id : Nat) (c : Cell ι), st.cells[id]? = some c →
      (w ++ [⟨k, think d⟩])[id]? = w[id]? := by
    intro id c hc
    have hid : id < w.length := h.size ▸ (Array.getElem?_eq_some_iff.1 hc).1
    exact List.getElem?_append_left hid
  refine ⟨w ++ [⟨k, think d⟩], ⟨hw, ⟨?_, ?_, ?_⟩, running_alloc p, rfl⟩, ?_, ?_⟩
  · simp [Store.alloc, h.size]
  · intro id kind plan memo hc
    simp only [Store.alloc, Array.getElem?_push] at hc
    split at hc
    · next hid =>
      cases hc
      exact ⟨hp, think d, hid ▸ hnew, hm.mono hw⟩
    · obtain ⟨hd, e, he, hme⟩ := h.plan hc
      exact ⟨hd, e, (hold id _ hc).trans he, hme.mono hw⟩
  · intro id kind plan value hc
    simp only [Store.alloc, Array.getElem?_push] at hc
    split at hc
    · cases hc
    · obtain ⟨hv, j, hj⟩ := h.result hc
      obtain ⟨-, e, he, -⟩ := h.plan hc
      refine ⟨hv.mono hw, j, ?_⟩
      rw [← hv.trail_eq hw, ← hj]
      exact (World.Has.trail_eq hw ⟨e, he⟩).symm
  · exact .lazy ⟨think d, hnew⟩
  · exact congrArg (Shown.mk "Lazy") (World.trail_eq hnew)

theorem Leads.alloc (h : st.Leads w st' w') {p : Plan k} (hp : p.Deferred) {d : Trail (Value k)}
    (hm : p.Means w' (.deferred d)) :
    ∃ w'', st.Leads w (st'.alloc p).2 w'' ∧
      El.reading (.seq k) w'' (st'.alloc p).1 (.deferred d) := by
  obtain ⟨w'', hl, hr⟩ := h.means.alloc hp hm
  exact ⟨w'', h.trans hl, hr⟩

end Store

namespace Plan
open Store (Leads)

theorem reading_one {w : World ι} {k : Kind ι} {head : El k} {tail : Sequence k} {v : Value k}
    {T : Shown (Value k)} (hh : El.reading k w head v) (ht : El.reading (.seq k) w tail T) :
    El.reading (.seq k) w (.one head tail) (.cons v T) := by
  obtain ⟨hh, rfl⟩ := hh
  obtain ⟨ht, rfl⟩ := ht
  exact ⟨.one hh ht, rfl⟩

theorem reading_concat {w : World ι} {k : Kind ι} {a b : Sequence k} {A B : Shown (Value k)}
    (ha : El.reading (.seq k) w a A) (hb : El.reading (.seq k) w b B) :
    El.reading (.seq k) w (Node.concat a b) (A.concat B) := by
  obtain ⟨ha, rfl⟩ := ha
  obtain ⟨hb, rfl⟩ := hb
  exact ⟨Node.Formed.concat ha hb, Sequence.shown_concat w a hb⟩

theorem terminated_means {w : World ι} {k : Kind ι} {input : Plan k} {T : Shown (Value k)}
    (h : input.Means w T) : input.terminated.Means w T.terminated := by
  refine ⟨_, _, ⟨T, some, h, fun w' _ x v hx => El.reading_some hx, rfl⟩, ?_, rfl⟩
  exact reading_one (El.reading_none w k) ⟨.empty, rfl⟩

/-- A built plan is a formed node that shows what the plan means. -/
theorem build_means {k : Kind ι} {p : Plan k} {st : Store ι} {w : World ι} {S : Shown (Value k)}
    (h : p.Means w S) (hst : st.Means w) :
    ∃ w', st.Leads w (p.build st).2 w' ∧ El.reading (.seq k) w' (p.build st).1 S := by
  induction p generalizing st w with
  | given s => exact ⟨w, hst.leads, h⟩
  | cons head tail ih =>
    obtain ⟨v, T, hv, hT, rfl⟩ := h
    obtain ⟨w', hl, ht⟩ := ih hT hst
    exact ⟨w', hl, reading_one (El.lasting_reading _ hl.grown hv) ht⟩
  | append a b iha ihb =>
    obtain ⟨A, B, hA, hB, rfl⟩ := h
    obtain ⟨w', hl, ha⟩ := iha hA hst
    obtain ⟨w'', hl', hb⟩ := ihb (hB.mono hl.grown) hl.means
    exact ⟨w'', hl.trans hl', reading_concat (El.lasting_reading _ hl'.grown ha) hb⟩
  | defer note body _ =>
    obtain ⟨T, hT, rfl⟩ := h
    exact hst.leads.alloc (p := .defer note body) trivial ⟨T, hT, rfl⟩
  | map input f ih =>
    obtain ⟨T, g, hT, hg, rfl⟩ := h
    obtain ⟨w', hl, hs⟩ := ih hT hst
    exact hl.alloc (p := .map (.given (input.build st).1) f) trivial
      ⟨T, g, hs, Reading.lasting_fn _ _ hl.grown hg, rfl⟩
  | mapPlan input f note ih _ =>
    obtain ⟨T, g, hT, hg, rfl⟩ := h
    obtain ⟨w', hl, hs⟩ := ih hT hst
    exact hl.alloc (p := .mapPlan (.given (input.build st).1) f note) trivial
      ⟨T, g, hs, fun w'' hw' => hg w'' (hl.grown.trans hw'), rfl⟩
  | flatten outer ih =>
    obtain ⟨T, hT, rfl⟩ := h
    obtain ⟨w', hl, hs⟩ := ih hT hst
    exact hl.alloc (p := .flatten (.given (outer.build st).1)) trivial ⟨T, hs, rfl⟩
  | take input count ih =>
    obtain ⟨T, hT, rfl⟩ := h
    obtain ⟨w', hl, hs⟩ := ih hT hst
    by_cases hc : count = 0
    · simp only [Plan.build, hc, if_true]
      exact ⟨w', hl, .empty, rfl⟩
    · simp only [Plan.build, hc, if_false]
      exact hl.alloc (p := .take (.given (input.build st).1) count) trivial ⟨T, hs, (if_neg hc).symm⟩
  | takeWhile input p ih =>
    obtain ⟨T, q, hT, hq, rfl⟩ := h
    obtain ⟨w', hl, hs⟩ := ih hT hst
    exact hl.alloc (p := .takeWhile (.given (input.build st).1) p) trivial
      ⟨T, q, hs, Reading.lasting_fn _ _ hl.grown hq, rfl⟩
  | skip input count ih =>
    obtain ⟨T, hT, rfl⟩ := h
    obtain ⟨w', hl, hs⟩ := ih hT hst
    exact hl.alloc (p := .skip (.given (input.build st).1) count) trivial ⟨T, hs, rfl⟩
  | scan input state step ih =>
    obtain ⟨T, τ, R, t, g, hR, hT, ht, hg, rfl⟩ := h
    obtain ⟨w', hl, hs⟩ := ih hT hst
    exact hl.alloc (p := .scan (.given (input.build st).1) state step) trivial
      ⟨T, τ, R, t, g, hR, hs, hR hl.grown ht, Reading.lasting_fn _ _ hl.grown hg, rfl⟩
  | stateScan input state step ih =>
    obtain ⟨T, τ, R, t, g, hR, hT, ht, hg, rfl⟩ := h
    obtain ⟨w', hl, hs⟩ := ih hT hst
    exact hl.alloc (p := .stateScan (.given (input.build st).1) state step) trivial
      ⟨T, τ, R, t, g, hR, hs, hR hl.grown ht, Reading.lasting_fn _ _ hl.grown hg, rfl⟩

end Plan

end MemoSequence
