import MemoSequence.Proofs.Calls
import MemoSequence.Proofs.PairedRuns
set_option autoImplicit false

namespace MemoSequence
open Sequence (Formed)

variable {ι : Type} [Basis ι] {a k κ : Kind ι} {σ : Type}

/-- What the two stores hold in a cell that is none of the line. -/
inductive Agreeing (r : Ranks ι) (id : Nat) : Cell ι → Cell ι → Prop
  | unforced {k : Kind ι} {p : Plan k} {x : ℚ} (hid : r[id]? = some (k, x))
      (hp : x < 0 → r.Suffice 0 p.Meaningful) : Agreeing r id ⟨k, p, .unforced⟩ ⟨k, p, .unforced⟩
  | running {k : Kind ι} {p₀ p : Plan k} {x : ℚ} (hid : r[id]? = some (k, x)) :
      Agreeing r id ⟨k, p₀, .running⟩ ⟨k, p, .running⟩
  | forced {k : Kind ι} {p₀ p : Plan k} {x : ℚ} {v : Sequence k} (hid : r[id]? = some (k, x))
      (hv : x < 0 → r.Suffice 0 (Formed · v)) : Agreeing r id ⟨k, p₀, .forced v⟩ ⟨k, p, .forced v⟩

theorem Agreeing.grown {r r' : Ranks ι} {id : Nat} {c₀ c : Cell ι} (h : Agreeing r id c₀ c)
    (hr : r <+: r') : Agreeing r' id c₀ c := by
  cases h with
  | unforced hid hp => exact .unforced (Ranks.getElem?_of_grown hr hid) fun hx => (hp hx).grown hr
  | running hid => exact .running (Ranks.getElem?_of_grown hr hid)
  | forced hid hv => exact .forced (Ranks.getElem?_of_grown hr hid) fun hx => (hv hx).grown hr

namespace Line

/-- The ranks, the calls that have been made, and the cells that wait with a plan of the line, with what
they hold in the two stores. -/
structure Index (a k : Kind ι) (σ : Type) where
  ranks : Ranks ι
  calls : List (Call σ (El a) (El k))
  waiting : List (Nat × Cell ι × Cell ι)

variable {L : Line a k σ} {b b' : Index a k σ} {asked : List (Request ι)} {st₀ st st₀' st' : Store ι}

/-- Once no cell of the line waits any more, there are no more calls. -/
structure Index.Grown (b b' : Index a k σ) : Prop where
  ranks : b.ranks <+: b'.ranks
  closed : b.waiting = [] → b'.waiting = [] ∧ b'.calls = b.calls

theorem Index.grown_of_open {b b' : Index a k σ} (hr : b.ranks <+: b'.ranks) (hopen : b.waiting ≠ []) :
    b.Grown b' := ⟨hr, fun hclosed => absurd hclosed hopen⟩

/-- Twins but for the notes and the cells of the line. -/
structure Twins (L : Line a k σ) (b : Index a k σ) (asked : List (Request ι)) (st₀ st : Store ι) : Prop where
  keeps₀ : st₀.keeps = true
  keeps : st.keeps = true
  size₀ : st₀.cells.size = b.ranks.length
  size : st.cells.size = b.ranks.length
  waiting : ∀ e ∈ b.waiting, st₀.cells[e.1]? = some e.2.1 ∧ st.cells[e.1]? = some e.2.2 ∧
    e.2.2.memo = .unforced
  agree : ∀ id < b.ranks.length, (∀ e ∈ b.waiting, e.1 ≠ id) →
    ∃ c₀ c, st₀.cells[id]? = some c₀ ∧ st.cells[id]? = some c ∧ Agreeing b.ranks id c₀ c
  journal : Interleaved (b.calls.filterMap fun call => L.note (call.state, call.element))
    st₀.journal.toList st.journal.toList
  called : L.CalledAlong asked st b.calls

namespace Twins

theorem noted (h : L.Twins b asked st₀ st) : L.Noted asked st₀ st := ⟨b.calls, h.journal, h.called⟩

theorem more (h : L.Twins b asked st₀ st) (l : List (Request ι)) : L.Twins b (asked ++ l) st₀ st :=
  { h with called := h.called.more l }

theorem journal_write {l : List Note} {note : Option Note}
    (h : Interleaved l st₀.journal.toList st.journal.toList) :
    Interleaved l (st₀.write note).journal.toList (st.write note).journal.toList := by
  cases note with
  | none => exact h
  | some n => simpa [Store.write] using h.right n

theorem write (h : L.Twins b asked st₀ st) (note : Option Note) :
    L.Twins b asked (st₀.write note) (st.write note) where
  keeps₀ := by rw [Store.keeps_write, h.keeps₀]
  keeps := by rw [Store.keeps_write, h.keeps]
  size₀ := by rw [Store.cells_write, h.size₀]
  size := by rw [Store.cells_write, h.size]
  waiting := by simpa only [Store.cells_write] using h.waiting
  agree := by simpa only [Store.cells_write] using h.agree
  journal := journal_write h.journal
  called := h.called.advances (st.advances_write note)

theorem call (h : L.Twins b asked st₀ st) {s : σ} {x : El a} {ys : List (El k)}
    (hcalled : L.CalledAlong asked (st.write (L.note (s, x))) (b.calls ++ [⟨s, x, ys⟩])) :
    L.Twins { b with calls := b.calls ++ [⟨s, x, ys⟩] } asked st₀ (st.write (L.note (s, x))) where
  keeps₀ := h.keeps₀
  keeps := by rw [Store.keeps_write, h.keeps]
  size₀ := h.size₀
  size := by rw [Store.cells_write, h.size]
  waiting := by simpa only [Store.cells_write] using h.waiting
  agree := by simpa only [Store.cells_write] using h.agree
  journal := by
    have hj := h.journal
    cases hn : L.note (s, x) with
    | none => simpa [hn, Store.write] using hj
    | some n => simpa [hn, Store.write] using hj.left n
  called := hcalled

theorem getElem?_alloc {p : Plan κ} (id : Nat) :
    (st.alloc p).2.cells[id]? =
      if id = st.cells.size then some ⟨κ, p, .unforced⟩ else st.cells[id]? :=
  Array.getElem?_push

theorem getElem?_alloc_of_some {p : Plan κ} {id : Nat} {c : Cell ι} (hc : st.cells[id]? = some c) :
    (st.alloc p).2.cells[id]? = some c := by
  have hid : id < st.cells.size := (Array.getElem?_eq_some_iff.1 hc).1
  rw [getElem?_alloc, if_neg (by omega), hc]

theorem alloc (h : L.Twins b asked st₀ st) {p₀ p : Plan κ} {x : ℚ} {waiting : List (Nat × Cell ι × Cell ι)}
    (hnew : waiting = b.waiting ∧ Agreeing (b.ranks ++ [(κ, x)]) b.ranks.length ⟨κ, p₀, .unforced⟩
        ⟨κ, p, .unforced⟩ ∨
      waiting = (b.ranks.length, ⟨κ, p₀, .unforced⟩, ⟨κ, p, .unforced⟩) :: b.waiting) :
    L.Twins ⟨b.ranks ++ [(κ, x)], b.calls, waiting⟩ asked (st₀.alloc p₀).2 (st.alloc p).2 where
  keeps₀ := h.keeps₀
  keeps := h.keeps
  size₀ := by simp [Store.alloc, h.size₀]
  size := by simp [Store.alloc, h.size]
  waiting e he := by
    have hold : ∀ e ∈ b.waiting, (st₀.alloc p₀).2.cells[e.1]? = some e.2.1 ∧
        (st.alloc p).2.cells[e.1]? = some e.2.2 ∧ e.2.2.memo = .unforced := by
      intro e he
      obtain ⟨h₀, h₁, hm⟩ := h.waiting e he
      exact ⟨getElem?_alloc_of_some h₀, getElem?_alloc_of_some h₁, hm⟩
    rcases hnew with ⟨rfl, -⟩ | rfl
    · exact hold e he
    · rcases List.mem_cons.1 he with rfl | he
      · simp only [getElem?_alloc, h.size₀, h.size, if_true]
        exact ⟨trivial, trivial, trivial⟩
      · exact hold e he
  agree id hid hne := by
    have hr : b.ranks <+: b.ranks ++ [(κ, x)] := List.prefix_append _ _
    rcases Nat.lt_or_ge id b.ranks.length with hlt | hge
    · have hne' : ∀ e ∈ b.waiting, e.1 ≠ id := by
        rcases hnew with ⟨rfl, -⟩ | rfl
        · exact hne
        · exact fun e he => hne e (List.mem_cons_of_mem _ he)
      obtain ⟨c₀, c, h₀, h₁, hagree⟩ := h.agree id hlt hne'
      exact ⟨c₀, c, getElem?_alloc_of_some h₀, getElem?_alloc_of_some h₁, hagree.grown hr⟩
    · obtain rfl : id = b.ranks.length := by simp at hid; omega
      rcases hnew with ⟨-, hagree⟩ | rfl
      · refine ⟨_, _, ?_, ?_, hagree⟩
        · rw [getElem?_alloc, h.size₀, if_pos rfl]
        · rw [getElem?_alloc, h.size, if_pos rfl]
      · exact absurd rfl (hne _ (List.mem_cons_self ..))
  journal := h.journal
  called := h.called.advances (st.advances_alloc p)

theorem setMemo (h : L.Twins b asked st₀ st) {id : Nat} (p₀ p : Plan κ) {m : Memo (Sequence κ)}
    (hagree : Agreeing b.ranks id ⟨κ, p₀, m⟩ ⟨κ, p, m⟩) (hid : id < b.ranks.length)
    (hst : st.Advances (st.setMemo id p m)) :
    L.Twins { b with waiting := b.waiting.filter fun e => e.1 ≠ id } asked (st₀.setMemo id p₀ m)
      (st.setMemo id p m) where
  keeps₀ := by rw [Store.keeps_setMemo, h.keeps₀]
  keeps := by rw [Store.keeps_setMemo, h.keeps]
  size₀ := by rw [Store.size_setMemo, h.size₀]
  size := by rw [Store.size_setMemo, h.size]
  waiting e he := by
    obtain ⟨he, hne⟩ := List.mem_filter.1 he
    obtain ⟨h₀, h₁, hm⟩ := h.waiting e he
    have hne' : id ≠ e.1 := fun heq => of_decide_eq_true hne heq.symm
    exact ⟨by rw [Store.getElem?_setMemo_of_ne hne', h₀],
      by rw [Store.getElem?_setMemo_of_ne hne', h₁], hm⟩
  agree j hj hne := by
    rw [Store.getElem?_setMemo (h.size₀ ▸ hid), Store.getElem?_setMemo (h.size ▸ hid), h.keeps₀, h.keeps]
    by_cases heq : id = j
    · subst heq
      simp only [and_self, if_true]
      exact ⟨_, _, rfl, rfl, hagree⟩
    · simp only [heq, and_false, if_false]
      refine h.agree j hj fun e he heq' => hne e (List.mem_filter.2 ⟨he, ?_⟩) heq'
      exact decide_eq_true fun h' => heq (h'.symm.trans heq')
  journal := by
    have hjournal : ∀ {st : Store ι} {p : Plan κ}, (st.setMemo id p m).journal = st.journal := by
      intro st p
      unfold Store.setMemo
      split <;> rfl
    rw [hjournal, hjournal]
    exact h.journal
  called := h.called.advances hst

theorem mark (h : L.Twins b asked st₀ st) {id : Nat} {x : ℚ} {p : Plan κ}
    (hid : b.ranks[id]? = some (κ, x)) (hc : st.cells[id]? = some ⟨κ, p, .unforced⟩) (p₀ : Plan κ) :
    L.Twins { b with waiting := b.waiting.filter fun e => e.1 ≠ id } asked (st₀.setMemo id p₀ .running)
      (st.setMemo id p .running) :=
  h.setMemo p₀ p (.running hid) (List.getElem?_eq_some_iff.1 hid).1 (Store.advances_mark hc)

theorem finish (h : L.Twins b asked st₀ st) {id : Nat} {x : ℚ} {p : Plan κ} {v : Sequence κ}
    (hid : b.ranks[id]? = some (κ, x)) (hrun : st.cells[id]? = some ⟨κ, p, .running⟩) (p₀ : Plan κ)
    (hv : x < 0 → b.ranks.Suffice 0 (Formed · v)) :
    L.Twins b asked (st₀.setMemo id p₀ (.forced v)) (st.setMemo id p (.forced v)) := by
  have hwaiting : (b.waiting.filter fun e => e.1 ≠ id) = b.waiting := by
    refine List.filter_eq_self.2 fun e he => decide_eq_true fun heq => Memo.running_ne (α := Sequence κ) ?_
    obtain ⟨-, hc, hm⟩ := h.waiting e he
    have hcell : (⟨κ, p, .running⟩ : Cell ι) = e.2.2 := Option.some.inj (hrun.symm.trans (heq ▸ hc))
    rwa [← hcell] at hm
  have htwins := h.setMemo p₀ p (.forced hid hv) (List.getElem?_eq_some_iff.1 hid).1
    (Store.advances_finish hrun v)
  rwa [hwaiting] at htwins

end Twins

/-- What is known of the cells of the line while none of them is being computed. -/
structure Resting (L : Line a k σ) where
  holds : Index a k σ → Store ι → Prop
  closed : ∀ {b st}, b.waiting = [] → holds b st
  stable : ∀ {b st st' r}, holds b st → st.Advances st' → b.ranks <+: r →
    holds ⟨r, b.calls, b.waiting⟩ st'

abbrev pairing (L : Line a k σ) (R : L.Resting) : Pairing ι where
  Index := Index a k σ
  Grown := Index.Grown
  refl b := ⟨List.prefix_rfl, fun h => ⟨h, rfl⟩⟩
  trans h h' := by
    refine ⟨h.ranks.trans h'.ranks, fun hclosed => ?_⟩
    obtain ⟨hw, hc⟩ := h.closed hclosed
    obtain ⟨hw', hc'⟩ := h'.closed hw
    exact ⟨hw', hc'.trans hc⟩
  Covered b := b.ranks.Covered 0
  covered h hw := hw.of_grown h.ranks le_rfl
  exists_covered b := ⟨_, b.ranks.covered_world 0 .nat⟩
  Related b asked st₀ st := L.Twins b asked st₀ st ∧ R.holds b st
  keeps h := h.1.keeps
  Seen := L.Noted
  seen h := h.1.noted
  Allowed _ := True
  outOfFuel := trivial
  request r h := ⟨h.1.more [r], h.2⟩
  write note h := by
    obtain ⟨h, hrest⟩ := h
    exact ⟨h.write note, R.stable hrest (Store.advances_write _ note) List.prefix_rfl⟩
  alloc {b _ st₀ st kind p} h hp := by
    obtain ⟨h, hrest⟩ := h
    have hr : b.ranks <+: b.ranks ++ [(kind, -1)] := List.prefix_append _ _
    have hnew : (b.ranks ++ [(kind, (-1 : ℚ))])[b.ranks.length]? = some (kind, -1) :=
      List.getElem?_concat_length
    refine ⟨?_, ⟨b.ranks ++ [(kind, -1)], b.calls, b.waiting⟩, ⟨hr, fun hw => ⟨hw, rfl⟩⟩, ⟨?_, ?_⟩, ?_⟩
    · rw [Store.alloc, Store.alloc, h.size₀, h.size]
    · exact h.alloc (.inl ⟨rfl, .unforced hnew fun _ => Ranks.Suffice.grown hp hr⟩)
    · exact R.stable hrest (Store.advances_alloc _ p) hr
    · intro w hw
      refine Node.Formed.lazy (hw ?_ neg_one_lt_zero)
      rw [h.size]
      exact hnew

section Forcing
variable {R : L.Resting} {fuel : Nat}

/-- A cell that is none of the line. -/
theorem joint_force_agreeing {kind : Kind ι}
    (hn : (L.pairing R).Extracts (.visit fuel) (.visit fuel))
    (h : L.Twins b asked st₀ st) (hrest : R.holds b st) {id : Nat} (hid : ∀ e ∈ b.waiting, e.1 ≠ id)
    (hs : b.ranks.Suffice 0 (Formed · (.lazy id : Sequence kind))) :
    (L.pairing R).Abreast ((L.pairing R).After b fun v w => Formed w v) asked st
      (Run.forceMomentsAt fuel kind id st₀) (Run.forceMomentsAt fuel kind id st)
      (Run.forceAt fuel kind id st₀) (Run.forceAt fuel kind id st) := by
  obtain ⟨x, hx, hneg⟩ := hs.rank
  have hlt : id < b.ranks.length := (List.getElem?_eq_some_iff.1 hx).1
  obtain ⟨c₀, c, hc₀, hc, hagree⟩ := h.agree id hlt hid
  cases hagree with
  | running hy =>
    obtain ⟨rfl, rfl⟩ := Prod.mk.inj (Option.some.inj (hx.symm.trans hy))
    exact Pairing.abreast_running hc₀ hc trivial
  | forced hy hv =>
    obtain ⟨rfl, rfl⟩ := Prod.mk.inj (Option.some.inj (hx.symm.trans hy))
    exact Pairing.abreast_kept hc₀ hc ⟨b, (L.pairing R).refl b, ⟨h, hrest⟩, hv hneg⟩
  | @unforced _ p _ hy hp =>
    obtain ⟨rfl, rfl⟩ := Prod.mk.inj (Option.some.inj (hx.symm.trans hy))
    have hsame : (b.waiting.filter fun e => e.1 ≠ id) = b.waiting :=
      List.filter_eq_self.2 fun e he => decide_eq_true (hid e he)
    have hmarked := h.mark hx hc p
    rw [hsame] at hmarked
    have hrest' : R.holds b (st.setMemo id p .running) :=
      R.stable hrest (Store.advances_mark hc) List.prefix_rfl
    refine Pairing.abreast_force h.keeps₀ h.keeps hc₀ hc hmarked.noted
      (joint_unfold hn (hp hneg) ⟨hmarked, hrest'⟩) ?_
    rintro v _ st₀' st' ⟨b', hb, ⟨h', hrest'⟩, hv⟩ - hrun
    have htwins := h'.finish (Ranks.getElem?_of_grown hb.ranks hx) hrun p fun _ => hv
    exact ⟨b', hb, ⟨htwins, R.stable hrest' (Store.advances_finish hrun v) List.prefix_rfl⟩, hv⟩

theorem Resting.forces
    (hwaiting : ∀ fuel, (∀ f ≤ fuel, (L.pairing R).Extracts (.visit f) (.visit f)) →
      ∀ ⦃b : Index a k σ⦄ ⦃kind : Kind ι⦄ ⦃asked : List (Request ι)⦄ ⦃st₀ st : Store ι⦄ (id : Nat)
        ⦃opened : List (Segments (Sequence kind))⦄, L.Twins b asked st₀ st → R.holds b st →
        (∃ e ∈ b.waiting, e.1 = id) → b.ranks.Suffice 0 (Formed · (.lazy id : Sequence kind)) →
        st.Reached asked (.lazy id : Sequence kind) opened →
        (L.pairing R).Abreast ((L.pairing R).After b fun v w => Formed w v) asked st
          (Run.forceMomentsAt fuel kind id st₀) (Run.forceMomentsAt fuel kind id st)
          (Run.forceAt fuel kind id st₀) (Run.forceAt fuel kind id st)) :
    (L.pairing R).Forces := by
  rintro fuel hn b kind id hs asked st₀ st opened ⟨h, hrest⟩ hr
  by_cases hid : ∃ e ∈ b.waiting, e.1 = id
  · exact hwaiting fuel hn id h hrest hid hs hr
  · exact joint_force_agreeing (hn fuel le_rfl) h hrest (fun e he heq => hid ⟨e, he, heq⟩) hs

end Forcing

end Line

end MemoSequence
