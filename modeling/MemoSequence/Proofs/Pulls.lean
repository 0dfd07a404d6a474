import MemoSequence.Proofs.Cutting
import MemoSequence.Proofs.Demand.Fuel
set_option autoImplicit false

namespace MemoSequence
open Stream' (WSeq)
open Stream'.WSeq (think)
open Sequence (Formed Tells trail)

section Values
variable {α : Type} {q : α → Bool} {d : Trail α} {values : List α} {answer : Option α}

/-- The values up to and including the first one that passes the test, and this one as the answer; all values
and no answer if none of them does. -/
inductive Sought (q : α → Bool) : Trail α → List α → Option α → Prop
  | found {d : Trail α} {v : α} {form : String} (n : ℕ) (hv : q v = true) :
      Sought q (think^[n] (.cons (v, form) d)) [v] (some v)
  | passed {d : Trail α} {v : α} {form : String} {values : List α} {answer : Option α} (n : ℕ)
      (hv : q v = false) (h : Sought q d values answer) :
      Sought q (think^[n] (.cons (v, form) d)) (v :: values) answer
  | ended (n : ℕ) : Sought q (think^[n] .nil) [] none

end Values

variable {ι : Type} [Basis ι] {k : Kind ι}

section Pulling

/-- What is done in between: the new cells are one's own, all others are as before, and these calls are
noted. -/
structure Tends (own : Set ℕ) (st : Store ι) (own' : Set ℕ) (st' : Store ι) (notes : List Note) : Prop where
  size : st.cells.size ≤ st'.cells.size
  added : own' = own ∪ Set.Ico st.cells.size st'.cells.size
  kept : ∀ id < st.cells.size, id ∉ own → st'.cells[id]? = st.cells[id]?
  journal : st'.journal.toList = st.journal.toList ++ notes

def Pulls (own : Set ℕ) (st : Store ι) (s : Sequence k) (answer : Option (El k × Sequence k))
    (notes : List Note) (own' : Set ℕ) (st' : Store ι) : Prop :=
  ∃ own₁ st₁ st₂, Tends own st own₁ st₁ [] ∧
    Gives (fun fuel => Sequence.next fuel s) st₁ answer st₂ ∧ Tends own₁ st₂ own' st' notes

/-- A search pulls these elements, the last one of which decides. -/
inductive Searches (p : Fn (El k) Bool) :
    Set ℕ → Store ι → Sequence k → List (El k) → Option (El k) → Store ι → Prop
  | found {own own' : Set ℕ} {st st' : Store ι} {s tail : Sequence k} {x : El k}
      (h : Pulls own st s (some (x, tail)) (p.note x).toList own' st') (hx : p.apply x = true) :
      Searches p own st s [x] (some x) st'
  | passed {own own' : Set ℕ} {st st₁ st' : Store ι} {s tail : Sequence k} {x : El k} {xs : List (El k)}
      {answer : Option (El k)} (h : Pulls own st s (some (x, tail)) (p.note x).toList own' st₁)
      (hx : p.apply x = false) (hrest : Searches p own' st₁ tail xs answer st') :
      Searches p own st s (x :: xs) answer st'
  | ended {own own' : Set ℕ} {st st' : Store ι} {s : Sequence k} (h : Pulls own st s none [] own' st') :
      Searches p own st s [] none st'

end Pulling

namespace Tends
variable {own own' own'' : Set ℕ} {st st' st'' : Store ι} {notes notes' : List Note}

theorem refl (own : Set ℕ) (st : Store ι) : Tends own st own st [] where
  size := le_rfl
  added := by rw [Set.Ico_self, Set.union_empty]
  kept _ _ _ := rfl
  journal := (List.append_nil _).symm

theorem trans (h : Tends own st own' st' notes) (h' : Tends own' st' own'' st'' notes') :
    Tends own st own'' st'' (notes ++ notes') where
  size := h.size.trans h'.size
  added := by rw [h'.added, h.added, Set.union_assoc, Set.Ico_union_Ico_eq_Ico h.size h'.size]
  kept id hid hown := by
    have hown' : id ∉ own' := by
      rw [h.added]
      exact fun hmem => hmem.elim hown fun hnew => absurd hnew.1 (Nat.not_le.2 hid)
    rw [h'.kept id (hid.trans_le h.size) hown', h.kept id hid hown]
  journal := by rw [h'.journal, h.journal, List.append_assoc]

theorem write (own : Set ℕ) (st : Store ι) (note : Option Note) :
    Tends own st own (st.write note) note.toList := by
  cases note with
  | none => exact refl own st
  | some note =>
    refine ⟨le_rfl, ?_, fun _ _ _ => rfl, Array.toList_push⟩
    rw [Store.cells_write, Set.Ico_self, Set.union_empty]

theorem alloc (own : Set ℕ) (st : Store ι) {k : Kind ι} (plan : Plan k) :
    Tends own st (own ∪ Set.Ico st.cells.size (st.cells.size + 1)) (st.alloc plan).2 [] where
  size := by simp [Store.alloc]
  added := by simp [Store.alloc]
  kept id hid _ := by simp [Store.alloc, Array.getElem?_push, hid.ne]
  journal := (List.append_nil _).symm

theorem setMemo (st : Store ι) {id : ℕ} (hown : id ∈ own) (hid : id < st.cells.size) {k : Kind ι}
    (plan : Plan k) (memo : Memo (Sequence k)) : Tends own st own (st.setMemo id plan memo) [] where
  size := (Store.size_setMemo id plan memo).ge
  added := by rw [Store.size_setMemo, Set.Ico_self, Set.union_empty]
  kept j _ hj := by
    rw [Store.getElem?_setMemo hid, if_neg]
    rintro ⟨-, rfl⟩
    exact hj hown
  journal := by
    unfold Store.setMemo
    split <;> exact (List.append_nil _).symm

end Tends

theorem Sequence.Tells.mono {w w' : World ι} (hw : w <+: w') {d : Trail (Value k)}
    {answer : Option (El k × Sequence k)} (h : Tells w d answer) : Tells w' d answer := by
  cases answer with
  | none => exact Sequence.tells_none.2 (Sequence.tells_none.1 h)
  | some r =>
    obtain ⟨x, tail⟩ := r
    obtain ⟨⟨n, hd⟩, hx, htail⟩ := Sequence.tells_some.1 h
    rw [hx.value_eq hw, htail.trail_eq hw] at hd
    exact Sequence.tells_some.2 ⟨⟨n, hd⟩, hx.mono hw, htail.mono hw⟩

section Searching
variable {own own' own₁ : Set ℕ} {st st₁ st' : Store ι} {s tail : Sequence k} {x : El k} {xs : List (El k)}
  {p : Fn (El k) Bool} {q : Value k → Bool} {answer : Option (El k)} {w w₁ : World ι}

theorem Pulls.prepend {answer : Option (El k × Sequence k)} {notes : List Note}
    (h : Tends own st own₁ st₁ []) (hp : Pulls own₁ st₁ s answer notes own' st') :
    Pulls own st s answer notes own' st' := by
  obtain ⟨own₂, st₂, st₃, hbefore, hnext, hafter⟩ := hp
  exact ⟨own₂, st₂, st₃, h.trans hbefore, hnext, hafter⟩

theorem Searches.prepend (h : Tends own st own₁ st₁ []) (hs : Searches p own₁ st₁ s xs answer st') :
    Searches p own st s xs answer st' := by
  cases hs with
  | found hp hx => exact .found (hp.prepend h) hx
  | passed hp hx hrest => exact .passed (hp.prepend h) hx hrest
  | ended hp => exact .ended (hp.prepend h)

def Searched (p : Fn (El k) Bool) (q : Value k → Bool) (own : Set ℕ) (st : Store ι) (w : World ι)
    (s : Sequence k) (answer : Option (El k)) (st' : Store ι) : Prop :=
  ∃ xs values v w', Searches p own st s xs answer st' ∧ Sought q (trail w s) values v ∧
    st.Leads w st' w' ∧ (El.reading k).list w' xs values ∧ El.reading (.option k) w' answer v

theorem searched_ended (hpull : Pulls own st s none [] own' st₁) (hl : st.Leads w st₁ w₁)
    (ht : Tells w₁ (trail w s) none) : Searched p q own st w s none st₁ := by
  obtain ⟨n, hd⟩ := Sequence.tells_none.1 ht
  exact ⟨[], [], none, w₁, .ended hpull, hd ▸ .ended n, hl, .nil, El.reading_none w₁ k⟩

variable (hp : (El.reading k).fn (.same Bool) w p.apply q)
include hp

theorem searched_found (hpull : Pulls own st s (some (x, tail)) (p.note x).toList own' st₁)
    (hl : st.Leads w st₁ w₁) (ht : Tells w₁ (trail w s) (some (x, tail))) (hx : p.apply x = true) :
    Searched p q own st w s (some x) st₁ := by
  obtain ⟨⟨n, hd⟩, hform, -⟩ := Sequence.tells_some.1 ht
  have hread : El.reading k w₁ x (El.value w₁ k x) := ⟨hform, rfl⟩
  have hq : q (El.value w₁ k x) = true := (hp w₁ hl.grown x _ hread).symm.trans hx
  exact ⟨[x], _, _, w₁, .found hpull hx, hd ▸ .found n hq, hl, .cons hread .nil, El.reading_some hread⟩

theorem searched_passed (hpull : Pulls own st s (some (x, tail)) (p.note x).toList own' st₁)
    (hl : st.Leads w st₁ w₁) (ht : Tells w₁ (trail w s) (some (x, tail))) (hx : p.apply x = false)
    (hrest : Searched p q own' st₁ w₁ tail answer st') : Searched p q own st w s answer st' := by
  obtain ⟨⟨n, hd⟩, hform, -⟩ := Sequence.tells_some.1 ht
  have hread : El.reading k w₁ x (El.value w₁ k x) := ⟨hform, rfl⟩
  have hq : q (El.value w₁ k x) = false := (hp w₁ hl.grown x _ hread).symm.trans hx
  obtain ⟨xs, values, v, w', hsearches, hsought, hl', hxs, hanswer⟩ := hrest
  exact ⟨x :: xs, _, v, w', .passed hpull hx hsearches, hd ▸ .passed n hq hsought, hl.trans hl',
    .cons (El.lasting_reading k hl'.grown hread) hxs, hanswer⟩

theorem find_searched {fuel : ℕ} (hst : st.Means w) (hs : Formed w s)
    (h : Sequence.find? p fuel s st = .ok (answer, st')) : Searched p q ∅ st w s answer st' := by
  induction fuel generalizing s st w with
  | zero => cases h
  | succ fuel ih =>
    obtain ⟨reply, st₁, hnext, h⟩ := Run.bind_eq_ok.1 h
    obtain ⟨w₁, hl, ht⟩ := next_sound fuel hnext hst hs
    have hgives : Gives (fun fuel => Sequence.next fuel s) st reply st₁ :=
      ⟨fuel, fun n hn => visit_extends hn s [] _ _ hnext⟩
    cases reply with
    | none =>
      obtain ⟨rfl, rfl⟩ := Run.pure_eq_ok.1 h
      exact searched_ended ⟨∅, st, st₁, .refl _ _, hgives, .refl _ _⟩ hl ht
    | some r =>
      obtain ⟨x, tail⟩ := r
      have hpull : Pulls ∅ st s (some (x, tail)) (p.note x).toList ∅ (st₁.write (p.note x)) :=
        ⟨∅, st, st₁, .refl _ _, hgives, .write _ _ _⟩
      have hl₁ := hl.trans (hl.means.leads_write (p.note x))
      simp only [bind_assoc, Run.call_bind] at h
      cases hx : p.apply x with
      | true =>
        simp only [hx, if_true, pure_bind] at h
        obtain ⟨rfl, rfl⟩ := Run.pure_eq_ok.1 h
        exact searched_found hp hpull hl₁ ht hx
      | false =>
        simp only [hx, Bool.false_eq_true, if_false, pure_bind] at h
        obtain ⟨-, -, htail⟩ := Sequence.tells_some.1 ht
        exact searched_passed hp hpull hl₁ ht hx
          (ih (Reading.lasting_fn _ _ hl₁.grown hp) hl₁.means htail h)

end Searching

section Filtering
variable {p : Fn (El k) Bool} {st st' : Store ι} {w : World ι} {s : Sequence k} {i o fuel : ℕ}

def part (p : Fn (El k) Bool) (x : El k) : Sequence k := if p.apply x then .single x else .empty

def Plan.parts (p : Fn (El k) Bool) (s : Sequence k) : Plan (.seq k) :=
  .mapPlan (.given s) (fun x => if p.apply x then .single x else .empty) p.note

theorem build_part (p : Fn (El k) Bool) (x : El k) (st : Store ι) :
    Plan.build (if p.apply x then .single x else .empty) st = (part p x, st) := by
  unfold part
  split <;> rfl

theorem visit_lazy {answer : Option (El k × Sequence k)}
    (h : Sequence.visit fuel (.lazy i : Sequence k) [] st = .ok (answer, st')) :
    ∃ n v st₁, fuel = n + 1 ∧
      Run.force (Plan.unfold fun _ s => Sequence.visit n s []) k i st = .ok (v, st₁) ∧
      Sequence.visit n v [] st₁ = .ok (answer, st') := by
  cases fuel with
  | zero => cases h
  | succ n =>
    obtain ⟨t, st₁, ht, h⟩ := Run.bind_eq_ok.1 h
    obtain ⟨v, st₂, hv, ht⟩ := Run.bind_eq_ok.1 ht
    obtain ⟨rfl, rfl⟩ := Run.pure_eq_ok.1 ht
    exact ⟨n, v, st₂, rfl, hv, h⟩

theorem visit_empty {answer : Option (El k × Sequence k)}
    (h : Sequence.visit fuel (.empty : Sequence k) [] st = .ok (answer, st')) : answer = none ∧ st' = st := by
  cases fuel with
  | zero => cases h
  | succ n =>
    obtain ⟨t, st₁, ht, h⟩ := Run.bind_eq_ok.1 h
    obtain ⟨rfl, rfl⟩ := Run.pure_eq_ok.1 ht
    obtain ⟨rfl, rfl⟩ := Run.pure_eq_ok.1 h
    exact ⟨rfl, rfl⟩

theorem visit_one {x : El k} {tail : Sequence k} {opened : List (Segments (Sequence k))}
    {answer : Option (El k × Sequence k)}
    (h : Sequence.visit fuel (.one x tail) opened st = .ok (answer, st')) :
    answer = some (x, Node.reattach tail opened) ∧ st' = st := by
  cases fuel with
  | zero => cases h
  | succ n =>
    obtain ⟨t, st₁, ht, h⟩ := Run.bind_eq_ok.1 h
    obtain ⟨rfl, rfl⟩ := Run.pure_eq_ok.1 ht
    obtain ⟨rfl, rfl⟩ := Run.pure_eq_ok.1 h
    exact ⟨rfl, rfl⟩

theorem visit_kept {x : El k} {answer : Option (El k × Sequence k)}
    (h : Sequence.visit fuel (Node.concat (.single x) (.lazy o)) [] st = .ok (answer, st')) :
    answer.map Prod.fst = some x ∧ st' = st := by
  cases fuel with
  | zero => cases h
  | succ n =>
    obtain ⟨t, st₁, ht, h⟩ := Run.bind_eq_ok.1 h
    obtain ⟨rfl, rfl⟩ := Run.pure_eq_ok.1 ht
    obtain ⟨rfl, rfl⟩ := visit_one h
    exact ⟨rfl, rfl⟩

theorem force_unforced {unfold : {k : Kind ι} → Plan k → Run ι (Sequence k)} {plan : Plan k} {v : Sequence k}
    (hc : st.cells[i]? = some ⟨k, plan, .unforced⟩) (h : Run.force unfold k i st = .ok (v, st')) :
    ∃ st₁, unfold plan (st.setMemo i plan .running) = .ok (v, st₁) ∧
      st' = st₁.setMemo i plan (.forced v) := by
  obtain ⟨plan', ⟨hc', -⟩ | ⟨hc', hcomputed⟩⟩ := force_cases h
  · cases hc.symm.trans hc'
  · cases hc.symm.trans hc'
    exact hcomputed

theorem force_parts {n : ℕ} {u : Sequence (.seq k)}
    (hc : st.cells[i]? = some ⟨.seq k, .parts p s, .unforced⟩)
    (h : Run.force (Plan.unfold fun _ s => Sequence.visit n s []) (.seq k) i st = .ok (u, st')) :
    ∃ answer st₁, Sequence.next n s (st.setMemo i (.parts p s) .running) = .ok (answer, st₁) ∧
      match answer with
      | none => u = .empty ∧ st' = st₁.setMemo i (.parts p s) (.forced .empty)
      | some (x, tail) => u = .one (part p x) (.lazy st₁.cells.size) ∧
        st' = ((st₁.write (p.note x)).alloc (.parts p tail)).2.setMemo i (.parts p s) (.forced u) := by
  obtain ⟨st₁, hunfold, rfl⟩ := force_unforced hc h
  obtain ⟨_, _, hbuild, hunfold⟩ := Run.bind_eq_ok.1 hunfold
  obtain ⟨rfl, rfl⟩ := Prod.mk.inj (Except.ok.inj hbuild)
  obtain ⟨answer, st₂, hnext, hunfold⟩ := Run.bind_eq_ok.1 hunfold
  refine ⟨answer, st₂, hnext, ?_⟩
  cases answer with
  | none =>
    obtain ⟨rfl, rfl⟩ := Run.pure_eq_ok.1 hunfold
    exact ⟨rfl, rfl⟩
  | some r =>
    obtain ⟨x, tail⟩ := r
    simp only [Run.write_bind, Run.build_bind, build_part] at hunfold
    obtain ⟨rfl, rfl⟩ := Prod.mk.inj (Except.ok.inj hunfold)
    rw [← Store.cells_write st₂ (p.note x)]
    exact ⟨rfl, rfl⟩

theorem force_flatten {n : ℕ} {v : Sequence k} {outer : Sequence (.seq k)}
    (hc : st.cells[o]? = some ⟨k, .flatten (.given outer), .unforced⟩)
    (h : Run.force (Plan.unfold fun _ s => Sequence.visit n s []) k o st = .ok (v, st')) :
    ∃ answer st₁, Sequence.next n outer (st.setMemo o (.flatten (.given outer)) .running) =
        .ok (answer, st₁) ∧
      match answer with
      | none => v = .empty ∧ st' = st₁.setMemo o (.flatten (.given outer)) (.forced .empty)
      | some (inner, rest) => v = inner.concat (.lazy st₁.cells.size) ∧
        st' = (st₁.alloc (.flatten (.given rest))).2.setMemo o (.flatten (.given outer)) (.forced v) := by
  obtain ⟨st₁, hunfold, rfl⟩ := force_unforced hc h
  obtain ⟨_, _, hbuild, hunfold⟩ := Run.bind_eq_ok.1 hunfold
  obtain ⟨rfl, rfl⟩ := Prod.mk.inj (Except.ok.inj hbuild)
  obtain ⟨answer, st₂, hnext, hunfold⟩ := Run.bind_eq_ok.1 hunfold
  refine ⟨answer, st₂, hnext, ?_⟩
  cases answer with
  | none =>
    obtain ⟨rfl, rfl⟩ := Run.pure_eq_ok.1 hunfold
    exact ⟨rfl, rfl⟩
  | some r =>
    obtain ⟨rfl, rfl⟩ := Prod.mk.inj (Except.ok.inj hunfold)
    exact ⟨rfl, rfl⟩

section Means
variable {st₁ : Store ι} {w₁ : World ι}

theorem leads_built {id : ℕ} {plan made : Plan k} {S : Shown (Value k)} {j : ℕ} (hst : st.Means w)
    (hc : st.cells[id]? = some ⟨k, plan, .unforced⟩)
    (hl : (st.setMemo id plan .running).Leads w st₁ w₁) (hmade : made.Means w₁ S)
    (hj : w.trail k id = think^[j + 1] S.trail) :
    ∃ w', w₁ <+: w' ∧
      st.Leads w ((made.build st₁).2.setMemo id plan (.forced (made.build st₁).1)) w' ∧
      Formed w' (made.build st₁).1 ∧ trail w' (made.build st₁).1 = S.trail := by
  obtain ⟨w', hl', hformed, rfl⟩ := Plan.build_means hmade hl.means
  exact ⟨w', hl'.grown, leads_forced hst hc (hl.trans hl') hformed hj, hformed, rfl⟩

theorem parts_means (hst : st.Means w) {m : Memo (Sequence (.seq k))}
    (hc : st.cells[i]? = some ⟨.seq k, .parts p s, m⟩) :
    ∃ g : Value k → Shown (Value k), w.trail (.seq k) i = think (Trail.mapped g (trail w s)) ∧
      ∀ w', w <+: w' → ∀ x v, El.reading k w' x v →
        (if p.apply x then .single x else .empty : Plan k).Means w' (g v) := by
  obtain ⟨-, d, hd, T, g, ⟨-, rfl⟩, hg, hshown⟩ := hst.plan hc
  obtain ⟨-, rfl⟩ := Shown.mk.inj hshown
  exact ⟨g, World.trail_eq hd, hg⟩

theorem flatten_means (hst : st.Means w) {outer : Sequence (.seq k)} {m : Memo (Sequence k)}
    (hc : st.cells[o]? = some ⟨k, .flatten (.given outer), m⟩) :
    w.trail k o = think (Trail.flattened (trail w outer)) := by
  obtain ⟨-, d, hd, T, ⟨-, rfl⟩, hshown⟩ := hst.plan hc
  obtain ⟨-, rfl⟩ := Shown.mk.inj hshown
  exact World.trail_eq hd

theorem part_reading {x : El k} {S : Shown (Value k)}
    (h : (if p.apply x then .single x else .empty : Plan k).Means w S) :
    El.reading (.seq k) w (part p x) S := by
  unfold part
  cases hx : p.apply x <;> simp only [hx] at h <;> exact h

theorem leads_parts_end (hst : st.Means w) (hc : st.cells[i]? = some ⟨.seq k, .parts p s, .unforced⟩)
    (hl : (st.setMemo i (.parts p s) .running).Leads w st₁ w₁) (ht : Tells w₁ (trail w s) none) :
    st.Leads w (st₁.setMemo i (.parts p s) (.forced .empty)) w₁ ∧ Tells w₁ (w.trail (.seq k) i) none := by
  obtain ⟨g, htrail, -⟩ := parts_means hst hc
  obtain ⟨n, hd⟩ := Sequence.tells_none.1 ht
  have hj : w.trail (.seq k) i = think^[n + 1] .nil := by
    rw [htrail, hd, (Trail.strict_mapped g).ticks, Trail.mapped_nil, Function.iterate_succ_apply']
  exact ⟨leads_forced hst hc hl .empty hj, Sequence.tells_none.2 ⟨_, hj⟩⟩

theorem leads_parts (hst : st.Means w) (hc : st.cells[i]? = some ⟨.seq k, .parts p s, .unforced⟩)
    (hl : (st.setMemo i (.parts p s) .running).Leads w st₁ w₁) {x : El k} {tail : Sequence k}
    (ht : Tells w₁ (trail w s) (some (x, tail))) :
    ∃ w', w₁ <+: w' ∧
      st.Leads w (((st₁.write (p.note x)).alloc (.parts p tail)).2.setMemo i (.parts p s)
        (.forced (.one (part p x) (.lazy st₁.cells.size)))) w' ∧
      Tells w' (w.trail (.seq k) i) (some (part p x, .lazy st₁.cells.size)) := by
  obtain ⟨g, htrail, hg⟩ := parts_means hst hc
  obtain ⟨⟨n, hd⟩, hx, htail⟩ := Sequence.tells_some.1 ht
  have hpart := part_reading (hg w₁ hl.grown x _ ⟨hx, rfl⟩)
  have hmade : (Plan.cons (part p x) (.parts p tail)).Means w₁
      (.cons (g (El.value w₁ k x)) (.deferred (.mapped g (trail w₁ tail)))) :=
    ⟨_, _, hpart, ⟨_, g, ⟨htail, rfl⟩, fun w' hw => hg w' (hl.grown.trans hw), rfl⟩, rfl⟩
  have hj : w.trail (.seq k) i = think^[n + 1]
      (Shown.cons (g (El.value w₁ k x)) (.deferred (.mapped g (trail w₁ tail)))).trail := by
    rw [htrail, hd, (Trail.strict_mapped g).ticks, Trail.mapped_cons, Function.iterate_succ_apply']
    rfl
  obtain ⟨w', hw, hl', hformed, hsame⟩ :=
    leads_built hst hc (hl.trans (hl.means.leads_write (p.note x))) hmade hj
  have hbuild : (Plan.cons (part p x) (.parts p tail)).build (st₁.write (p.note x)) =
      (.one (part p x) (.lazy st₁.cells.size), ((st₁.write (p.note x)).alloc (.parts p tail)).2) := by
    rw [← Store.cells_write st₁ (p.note x)]
    rfl
  rw [hbuild] at hl' hformed hsame
  cases hformed with
  | one hpart hrest =>
    exact ⟨w', hw, hl', Sequence.tells_some.2 ⟨⟨n + 1, hj.trans (congrArg _ hsame.symm)⟩, hpart, hrest⟩⟩

theorem leads_flatten_end (hst : st.Means w) {outer : Sequence (.seq k)}
    (hc : st.cells[o]? = some ⟨k, .flatten (.given outer), .unforced⟩)
    (hl : (st.setMemo o (.flatten (.given outer)) .running).Leads w st₁ w₁)
    (ht : Tells w₁ (trail w outer) none) :
    st.Leads w (st₁.setMemo o (.flatten (.given outer)) (.forced .empty)) w₁ := by
  obtain ⟨n, hd⟩ := Sequence.tells_none.1 ht
  have hj : w.trail k o = think^[n + 1] .nil := by
    rw [flatten_means hst hc, hd, Trail.strict_flattened.ticks, Trail.flattened_nil,
      Function.iterate_succ_apply']
  exact leads_forced hst hc hl .empty hj

theorem leads_flatten (hst : st.Means w) {outer : Sequence (.seq k)}
    (hc : st.cells[o]? = some ⟨k, .flatten (.given outer), .unforced⟩)
    (hl : (st.setMemo o (.flatten (.given outer)) .running).Leads w st₁ w₁) {inner : Sequence k}
    {rest : Sequence (.seq k)} (ht : Tells w₁ (trail w outer) (some (inner, rest))) :
    ∃ w', w₁ <+: w' ∧
      st.Leads w ((st₁.alloc (.flatten (.given rest))).2.setMemo o (.flatten (.given outer))
        (.forced (inner.concat (.lazy st₁.cells.size)))) w' := by
  obtain ⟨⟨n, hd⟩, hinner, hrest⟩ := Sequence.tells_some.1 ht
  have hmade : (Plan.append (.given inner) (.flatten (.given rest))).Means w₁
      ((Sequence.shown w₁ inner).concat (.deferred (.flattened (trail w₁ rest)))) :=
    ⟨_, _, ⟨hinner, rfl⟩, ⟨_, ⟨hrest, rfl⟩, rfl⟩, rfl⟩
  have hj : w.trail k o = think^[n + 1 + 1]
      ((Sequence.shown w₁ inner).concat (.deferred (.flattened (trail w₁ rest)))).trail := by
    rw [flatten_means hst hc, hd, Trail.strict_flattened.ticks, Trail.flattened_cons,
      Shown.trail_concat_deferred, Function.iterate_succ_apply', Function.iterate_succ_apply]
    · rfl
    · intro he
      rw [(Node.form_eq_empty inner).1 he]
      rfl
  obtain ⟨w', hw, hl', -, -⟩ := leads_built hst hc hl hmade hj
  exact ⟨w', hw, hl'⟩

end Means

/-- A filter whose cells have not been forced. -/
structure Waits (p : Fn (El k) Bool) (st : Store ι) (s : Sequence k) (i o : ℕ) : Prop where
  ne : i ≠ o
  parts : st.cells[i]? = some ⟨.seq k, .parts p s, .unforced⟩
  flatten : st.cells[o]? = some ⟨k, .flatten (.given (.lazy i)), .unforced⟩

theorem getElem?_alloc {plan : Plan k} {id : ℕ} :
    (st.alloc plan).2.cells[id]? =
      if id = st.cells.size then some ⟨k, plan, .unforced⟩ else st.cells[id]? := by
  simp [Store.alloc, Array.getElem?_push]

theorem Waits.lt (h : Waits p st s i o) : i < st.cells.size ∧ o < st.cells.size :=
  ⟨(Array.getElem?_eq_some_iff.1 h.parts).1, (Array.getElem?_eq_some_iff.1 h.flatten).1⟩

theorem Waits.parts_running (h : Waits p st s i o) (plan : Plan k) (memo : Memo (Sequence k)) :
    (st.setMemo o plan memo).cells[i]? = some ⟨.seq k, .parts p s, .unforced⟩ := by
  rw [Store.getElem?_setMemo h.lt.2, if_neg fun hi => h.ne hi.2.symm]
  exact h.parts

def Store.asking (st : Store ι) (p : Fn (El k) Bool) (s : Sequence k) (i o : ℕ) : Store ι :=
  (st.setMemo o (.flatten (.given (.lazy i)) : Plan k) .running).setMemo i (.parts p s) .running

def Store.finished (st : Store ι) (p : Fn (El k) Bool) (s : Sequence k) (i o : ℕ) : Store ι :=
  (st.setMemo i (.parts p s) (.forced .empty)).setMemo o (.flatten (.given (.lazy i)) : Plan k)
    (.forced .empty)

def Store.passing (st : Store ι) (p : Fn (El k) Bool) (s : Sequence k) (i o : ℕ) (x : El k)
    (tail : Sequence k) : Store ι :=
  let held := ((st.write (p.note x)).alloc (.parts p tail)).2.setMemo i (.parts p s)
    (.forced (.one (part p x) (.lazy st.cells.size)))
  (held.alloc (.flatten (.given (.lazy st.cells.size)) : Plan k)).2.setMemo o
    (.flatten (.given (.lazy i))) (.forced ((part p x).concat (.lazy (st.cells.size + 1))))

@[simp] theorem size_alloc (st : Store ι) {a : Kind ι} (plan : Plan a) :
    (st.alloc plan).2.cells.size = st.cells.size + 1 := by simp [Store.alloc]

@[simp] theorem size_held {x : El k} {tail : Sequence k} {u : Sequence (.seq k)} (st : Store ι) :
    (((st.write (p.note x)).alloc (.parts p tail)).2.setMemo i (.parts p s) (.forced u)).cells.size =
      st.cells.size + 1 := by simp

@[simp] theorem size_passing {x : El k} {tail : Sequence k} (st : Store ι) :
    (st.passing p s i o x tail).cells.size = st.cells.size + 2 := by simp [Store.passing]

namespace Waits
variable {own : Set ℕ} {st₁ : Store ι} {w₁ : World ι} {x : El k} {tail : Sequence k}

theorem force (h : Waits p st s i o) {n : ℕ} {v : Sequence k}
    (hrun : Run.force (Plan.unfold fun _ s => Sequence.visit n s []) k o st = .ok (v, st')) :
    ∃ m answer st₁, Sequence.next m s (st.asking p s i o) = .ok (answer, st₁) ∧
      match answer with
      | none => v = .empty ∧ st' = st₁.finished p s i o
      | some (x, tail) => v = (part p x).concat (.lazy (st₁.cells.size + 1)) ∧
        st' = st₁.passing p s i o x tail := by
  obtain ⟨reply, st₁, hreply, hafter⟩ := force_flatten h.flatten hrun
  obtain ⟨m, u, st₂, -, hforce, hvisit⟩ := visit_lazy hreply
  obtain ⟨answer, st₃, hnext, hinner⟩ := force_parts (h.parts_running _ _) hforce
  refine ⟨m, answer, st₃, hnext, ?_⟩
  cases answer with
  | none =>
    obtain ⟨rfl, rfl⟩ := hinner
    obtain ⟨rfl, rfl⟩ := visit_empty hvisit
    exact hafter
  | some r =>
    obtain ⟨x, tail⟩ := r
    obtain ⟨rfl, rfl⟩ := hinner
    obtain ⟨rfl, rfl⟩ := visit_one hvisit
    obtain ⟨rfl, rfl⟩ := hafter
    exact ⟨by rw [size_held], by rw [size_held, Store.passing]; rfl⟩

theorem means_asking (h : Waits p st s i o) (hst : st.Means w) : (st.asking p s i o).Means w :=
  means_running (means_running hst h.flatten) (h.parts_running _ _)

theorem leads_finished (h : Waits p st s i o) (hst : st.Means w)
    (hl : (st.asking p s i o).Leads w st₁ w₁) (ht : Tells w₁ (trail w s) none) :
    st.Leads w (st₁.finished p s i o) w₁ := by
  obtain ⟨hinner, ht'⟩ := leads_parts_end (means_running hst h.flatten) (h.parts_running _ _) hl ht
  exact leads_flatten_end hst h.flatten hinner ht'

theorem leads_passing (h : Waits p st s i o) (hst : st.Means w)
    (hl : (st.asking p s i o).Leads w st₁ w₁) (ht : Tells w₁ (trail w s) (some (x, tail))) :
    ∃ w', w₁ <+: w' ∧ st.Leads w (st₁.passing p s i o x tail) w' := by
  obtain ⟨w₂, hw, hinner, ht'⟩ := leads_parts (means_running hst h.flatten) (h.parts_running _ _) hl ht
  obtain ⟨w', hw', hl'⟩ := leads_flatten hst h.flatten hinner ht'
  rw [size_held] at hl'
  exact ⟨w', hw.trans hw', hl'⟩

theorem passing (h : Waits p st s i o) (hsize : st.cells.size ≤ st₁.cells.size) :
    Waits p (st₁.passing p s i o x tail) tail st₁.cells.size (st₁.cells.size + 1) := by
  obtain ⟨hi, ho⟩ := h.lt
  refine ⟨Nat.ne_of_lt (Nat.lt_succ_self _), ?_, ?_⟩
  · rw [Store.passing, Store.getElem?_setMemo (by simp; omega), if_neg (by omega), getElem?_alloc, size_held,
      if_neg (by omega), Store.getElem?_setMemo (by simp; omega), if_neg (by omega), getElem?_alloc,
      Store.cells_write, if_pos rfl]
  · rw [Store.passing, Store.getElem?_setMemo (by simp; omega), if_neg (by omega), getElem?_alloc, size_held,
      if_pos rfl]

theorem tends_asking (h : Waits p st s i o) (hi : i ∈ own) (ho : o ∈ own) :
    Tends own st own (st.asking p s i o) [] := by
  obtain ⟨hlti, hlto⟩ := h.lt
  exact (Tends.setMemo st ho hlto _ _).trans (.setMemo _ hi (by rwa [Store.size_setMemo]) _ _)

theorem tends_passing (h : Waits p st s i o) (x : El k) (tail : Sequence k)
    (hsize : st.cells.size ≤ st₁.cells.size) (hi : i ∈ own) (ho : o ∈ own) :
    ∃ own', Tends own st₁ own' (st₁.passing p s i o x tail) (p.note x).toList ∧
      st₁.cells.size ∈ own' ∧ st₁.cells.size + 1 ∈ own' := by
  obtain ⟨hlti, hlto⟩ := h.lt
  have hparts := (Tends.write own st₁ (p.note x)).trans (.alloc own _ (.parts p tail))
  have hinner := hparts.trans (.setMemo _ (.inl hi) (by simp; omega) (.parts p s)
    (.forced (.one (part p x) (.lazy st₁.cells.size))))
  have hflatten := hinner.trans (.alloc _ _ (.flatten (.given (.lazy st₁.cells.size)) : Plan k))
  have houter := hflatten.trans (.setMemo _ (.inl (.inl ho)) (by simp; omega)
    (.flatten (.given (.lazy i))) (.forced ((part p x).concat (.lazy (st₁.cells.size + 1)))))
  obtain ⟨own', hall⟩ : ∃ own', Tends own st₁ own' (st₁.passing p s i o x tail) (p.note x).toList := by
    simp only [List.append_nil] at houter
    exact ⟨_, houter⟩
  refine ⟨own', hall, ?_⟩
  rw [hall.added, size_passing]
  exact ⟨.inr ⟨le_rfl, by omega⟩, .inr ⟨by omega, by omega⟩⟩

theorem tends_finished (h : Waits p st s i o) (hsize : st.cells.size ≤ st₁.cells.size) (hi : i ∈ own)
    (ho : o ∈ own) : Tends own st₁ own (st₁.finished p s i o) [] := by
  obtain ⟨hlti, hlto⟩ := h.lt
  exact (Tends.setMemo st₁ hi (by omega) _ _).trans (.setMemo _ ho (by rw [Store.size_setMemo]; omega) _ _)

theorem size_le (hst : st.Means w) (hl : (st.asking p s i o).Leads w st₁ w₁) :
    st.cells.size ≤ st₁.cells.size := by
  rw [hl.means.size, hst.size]
  exact hl.grown.length_le

theorem searched (h : Waits p st s i o) (hst : st.Means w) (hi : i ∈ own) (ho : o ∈ own) (hs : Formed w s)
    {q : Value k → Bool} (hp : (El.reading k).fn (.same Bool) w p.apply q)
    {reply : Option (El k × Sequence k)}
    (hrun : Sequence.visit fuel (.lazy o : Sequence k) [] st = .ok (reply, st')) :
    Searched p q own st w s (reply.map Prod.fst) st' := by
  induction fuel generalizing st s i o own w with
  | zero => cases hrun
  | succ fuel ih =>
    obtain ⟨_, v, st₂, ⟨⟩, hforce, hvisit⟩ := visit_lazy hrun
    obtain ⟨m, answer, st₁, hnext, hafter⟩ := h.force hforce
    obtain ⟨w₁, hl, ht⟩ := next_sound m hnext (h.means_asking hst) hs
    have hsize := size_le hst hl
    have hgives : Gives (fun fuel => Sequence.next fuel s) (st.asking p s i o) answer st₁ :=
      ⟨m, fun n hn => visit_extends hn s [] _ _ hnext⟩
    have hbefore := h.tends_asking hi ho
    cases answer with
    | none =>
      obtain ⟨rfl, rfl⟩ := hafter
      obtain ⟨rfl, rfl⟩ := visit_empty hvisit
      exact searched_ended ⟨own, _, st₁, hbefore, hgives, h.tends_finished hsize hi ho⟩
        (h.leads_finished hst hl ht) ht
    | some r =>
      obtain ⟨x, tail⟩ := r
      obtain ⟨rfl, rfl⟩ := hafter
      obtain ⟨w', hw, hl'⟩ := h.leads_passing hst hl ht
      obtain ⟨own', hafter, hi', ho'⟩ := h.tends_passing x tail hsize hi ho
      have hpull : Pulls own st s (some (x, tail)) (p.note x).toList own' (st₁.passing p s i o x tail) :=
        ⟨own, _, st₁, hbefore, hgives, hafter⟩
      have ht' := ht.mono hw
      cases hx : p.apply x with
      | true =>
        rw [part, if_pos hx] at hvisit
        obtain ⟨hreply, rfl⟩ := visit_kept hvisit
        exact hreply ▸ searched_found hp hpull hl' ht' hx
      | false =>
        rw [part, if_neg (by simp [hx])] at hvisit
        obtain ⟨-, -, htail⟩ := Sequence.tells_some.1 ht'
        exact searched_passed hp hpull hl' ht' hx
          (ih (h.passing hsize) hl'.means hi' ho' htail (Reading.lasting_fn _ _ hl'.grown hp) hvisit)

end Waits

theorem waits_filter (p : Fn (El k) Bool) (st : Store ι) (s : Sequence k) :
    Waits p ((Plan.filter (.given s) p).build st).2 s st.cells.size (st.cells.size + 1) where
  ne := Nat.ne_of_lt (Nat.lt_succ_self _)
  parts := by
    have hne : st.cells.size ≠ (st.alloc (.parts p s)).2.cells.size := by rw [size_alloc]; omega
    exact getElem?_alloc.trans ((if_neg hne).trans (getElem?_alloc.trans (if_pos rfl)))
  flatten := by
    have hsize : st.cells.size + 1 = (st.alloc (.parts p s)).2.cells.size := (size_alloc st _).symm
    exact getElem?_alloc.trans (if_pos hsize)

theorem tends_filter (p : Fn (El k) Bool) (st : Store ι) (s : Sequence k) :
    ∃ own, Tends ∅ st own ((Plan.filter (.given s) p).build st).2 [] ∧
      st.cells.size ∈ own ∧ st.cells.size + 1 ∈ own := by
  have h := (Tends.alloc ∅ st (.parts p s)).trans
    (.alloc _ _ (.flatten (.given (.lazy st.cells.size)) : Plan k))
  refine ⟨_, h, .inl (.inr ⟨le_rfl, by omega⟩), .inr ?_⟩
  rw [size_alloc]
  exact ⟨le_rfl, by omega⟩

theorem filter_searched (hst : st.Means w) (hs : Formed w s) {q : Value k → Bool}
    (hp : (El.reading k).fn (.same Bool) w p.apply q) {answer : Option (El k)}
    (h : (Plan.filter (.given s) p).head fuel st = .ok (answer, st')) :
    Searched p q ∅ st w s answer st' := by
  have hhandle : ((Plan.filter (.given s) p).build st).1 = .lazy (st.cells.size + 1) :=
    congrArg Node.lazy (size_alloc st _)
  rw [Plan.head, Run.build_bind, hhandle] at h
  obtain ⟨reply, st₂, hvisit, h⟩ := Run.bind_eq_ok.1 h
  obtain ⟨rfl, rfl⟩ := Run.pure_eq_ok.1 h
  obtain ⟨w₁, hl, -⟩ := Plan.build_means (Plan.filter_means (given_means hs) hp) hst
  obtain ⟨own, htends, hi, ho⟩ := tends_filter p st s
  obtain ⟨xs, values, v, w', hsearches, hsought, hl', hxs, hanswer⟩ :=
    (waits_filter p st s).searched hl.means hi ho (hs.mono hl.grown) (Reading.lasting_fn _ _ hl.grown hp)
      hvisit
  rw [← hs.trail_eq hl.grown] at hsought
  exact ⟨xs, values, v, w', hsearches.prepend htends, hsought, hl.trans hl', hxs, hanswer⟩

end Filtering

end MemoSequence
