import MemoSequence.Proofs.Demand.Forcing
import MemoSequence.Proofs.Demand.Fuel
set_option autoImplicit false

namespace MemoSequence
open Node (upcoming)
open Sequence (visit)

variable {ι : Type} [Basis ι] {a k : Kind ι} {F G I R : Feed k} {l l' : List Note}

namespace Feed

/-- Where the feed is held, an extraction finds what `r` says, and notes `l`. -/
def Runs (F : Feed k) (l : List Note) (r : Option (Val k × Feed k)) : Prop :=
  ∀ (st : Store ι) (ids : List ℕ) (current : Sequence k) (opened : List (Segments (Sequence k))),
    st.keeps = true → st.Holds (upcoming current opened) F ids → ids.Nodup →
      ∃ answer st', Gives (fun fuel => visit fuel current opened) st answer st' ∧
        st.Offers ids l st' (Part.found answer) (found r) ∧
        (answer = none → Gives (fun fuel => visit fuel current opened) st' none st')

def Skips (F : Feed k) (n : ℕ) (l : List Note) (R : Feed k) : Prop :=
  ∀ (st : Store ι) (ids : List ℕ) (t : Sequence k), st.keeps = true → st.Holds t.parts F ids → ids.Nodup →
    ∃ rest st', Gives (fun fuel => Sequence.advance (.visit fuel) n t) st rest st' ∧
      st.Offers ids l st' rest.parts R

end Feed

theorem Sequence.gives_lazy {st st₁ st' : Store ι} {c : ℕ} {v : Sequence k}
    {opened : List (Segments (Sequence k))} {answer : Option (El k × Sequence k)}
    (hforce : Gives (fun fuel => Run.forceAt fuel k c) st v st₁)
    (hvisit : Gives (fun fuel => visit fuel v opened) st₁ answer st') :
    Gives (fun fuel => visit fuel (.lazy c) opened) st answer st' :=
  Gives.succ (Gives.bind (Gives.bind hforce (gives_of_eq rfl)) hvisit)

section Cell
variable {st : Store ι} {c : ℕ} {plan : Plan k} {t : Sequence a} {I : Feed a} {inner : List ℕ}

theorem Store.gives_forced {v : Sequence k} (hc : st.cells[c]? = some ⟨k, plan, .forced v⟩) :
    Gives (fun fuel => Run.forceAt fuel k c) st v st := by
  refine ⟨0, fun fuel _ => ?_⟩
  simp only [Run.forceAt, Run.force, Store.find?_eq_some.2 hc]

theorem Store.gives_force (hk : st.keeps = true) (hc : st.cells[c]? = some ⟨k, plan, .unforced⟩)
    (hinput : st.Holds t.parts I inner) (hnodup : (c :: inner).Nodup)
    (hunfold : ∀ st₁ : Store ι, st₁.keeps = true → st₁.Holds t.parts I inner → inner.Nodup →
      ∃ v st₂, Gives (fun fuel => plan.unfold (.visit fuel)) st₁ v st₂ ∧
        st₁.Offers inner l st₂ v.parts G) :
    ∃ v st', Gives (fun fuel => Run.forceAt fuel k c) st v st' ∧
      st.Offers (c :: inner) l st' v.parts G ∧ st'.cells[c]? = some ⟨k, plan, .forced v⟩ := by
  obtain ⟨hcinner, hinner⟩ := List.nodup_cons.1 hnodup
  have hlt : c < st.cells.size := (Array.getElem?_eq_some_iff.1 hc).1
  have hmark := moves_setMemo hlt plan .running
  have hmarked : (st.setMemo c plan .running).cells[c]? = some ⟨k, plan, .running⟩ :=
    getElem?_setMemo_self hk hc _ _
  obtain ⟨v, st₂, hgives, inner', hv, hinherits, hmoves⟩ := hunfold _ ((keeps_setMemo ..).trans hk)
    (hinput.spared hmark (List.disjoint_singleton.2 hcinner)) hinner
  have hrunning : st₂.cells[c]? = some ⟨k, plan, .running⟩ :=
    (hmoves.spared c (hlt.trans_le hmark.size) hcinner).trans hmarked
  have hkeep := moves_setMemo (Array.getElem?_eq_some_iff.1 hrunning).1 plan (.forced v)
  -- no part of what has been found is the cell itself, which has been running
  have hcinner' : c ∉ inner' := hv.not_mem hrunning Memo.running_ne
  refine ⟨v, st₂.setMemo c plan (.forced v), ?_, ⟨inner', ?_, ⟨hinherits.nodup, fun d hd => ?_⟩, ?_⟩, ?_⟩
  · obtain ⟨N, hN⟩ := hgives
    refine ⟨N, fun fuel hfuel => ?_⟩
    simp only [Run.forceAt, Run.force, find?_eq_some.2 hc]
    simp only [hN fuel hfuel]
  · exact hv.spared hkeep (List.disjoint_singleton.2 hcinner')
  · exact (hinherits.from_or_new d hd).imp (List.mem_cons_of_mem c) fun hle => hmark.size.trans hle
  · have hmarks : st.Moves (c :: inner) [] (st.setMemo c plan .running) := hmark.mono (by simp)
    have hall := (hmarks.trans hmoves
      fun d hd => .inl (List.mem_cons_of_mem c hd)).trans hkeep
        fun d hd => .inl (by simp [List.mem_singleton.1 hd])
    simpa using hall
  · exact getElem?_setMemo_self (hmoves.keeps.trans (hmark.keeps.trans hk)) hrunning _ _

end Cell

namespace Feed

theorem runs_cell {st : Store ι} {c : ℕ} {plan : Plan k} {t : Sequence a} {I : Feed a} {inner ids : List ℕ}
    {opened : List (Segments (Sequence k))} {r : Option (Val k × Feed k)} (hk : st.keeps = true)
    (hc : st.cells[c]? = some ⟨k, plan, .unforced⟩) (hinput : st.Holds t.parts I inner)
    (hrest : st.Holds ((Node.pendingParts opened).flatMap Node.parts) F ids)
    (hnodup : (c :: (inner ++ ids)).Nodup)
    (hunfold : ∀ st₁ : Store ι, st₁.keeps = true → st₁.Holds t.parts I inner → inner.Nodup →
      ∃ v st₂, Gives (fun fuel => plan.unfold (.visit fuel)) st₁ v st₂ ∧
        st₁.Offers inner l st₂ v.parts G)
    (hruns : (G.append F).Runs l' r) :
    ∃ answer st', Gives (fun fuel => visit fuel (.lazy c) opened) st answer st' ∧
      st.Offers (c :: (inner ++ ids)) (l ++ l') st' (Part.found answer) (found r) ∧
      (answer = none → Gives (fun fuel => visit fuel (.lazy c) opened) st' none st') := by
  rw [← List.cons_append] at hnodup
  obtain ⟨hcell, hids, hapart⟩ := List.nodup_append'.1 hnodup
  obtain ⟨v, st₁, hforce, hmid, hforced⟩ := Store.gives_force hk hc hinput hcell hunfold
  have hk₁ : st₁.keeps = true := by
    obtain ⟨_, _, _, hmoves⟩ := hmid
    exact hmoves.keeps.trans hk
  obtain ⟨held, hheld, hnew, htouched⟩ := hmid.append hrest hids hapart
  obtain ⟨answer, st₂, hanswer, hoffers, hagain⟩ := hruns _ held v opened hk₁ hheld hnew.nodup
  refine ⟨answer, st₂, Sequence.gives_lazy hforce hanswer, hoffers.from hnew htouched, fun hnone => ?_⟩
  obtain ⟨-, -, -, hleft⟩ := hoffers
  have hstill : st₂.cells[c]? = some ⟨k, plan, .forced v⟩ :=
    (hleft.spared c (Array.getElem?_eq_some_iff.1 hforced).1
      (hheld.not_mem hforced (Memo.forced_ne v))).trans hforced
  exact Sequence.gives_lazy (Store.gives_forced hstill) (hagain hnone)

/-- It is enough to look at what faces the next turn. -/
theorem runs_of_facing {r : Option (Val k × Feed k)}
    (hend : ∀ (st : Store ι) (ids : List ℕ), st.Holds ([] : List (Part (El k))) F ids → l = [] ∧ r = none)
    (hface : ∀ (st : Store ι) (ids : List ℕ) (current : Sequence k) (opened : List (Segments (Sequence k))),
      Node.Facing current → st.keeps = true → st.Holds (upcoming current opened) F ids → ids.Nodup →
        ∃ answer st', Gives (fun fuel => visit fuel current opened) st answer st' ∧
          st.Offers ids l st' (Part.found answer) (found r) ∧
          (answer = none → Gives (fun fuel => visit fuel current opened) st' none st')) :
    F.Runs l r := by
  intro st ids current opened hk hheld hnodup
  obtain ⟨hnil, hgives⟩ | ⟨current', opened', hfacing, hsame, hreaches⟩ := Sequence.opens current opened
  · rw [hnil] at hheld
    obtain ⟨rfl, rfl⟩ := hend st ids hheld
    exact ⟨none, st, hgives st, Store.offers_nil (.refl st ids), fun _ => hgives st⟩
  · obtain ⟨answer, st', hgives, hoffers, hagain⟩ :=
      hface st ids current' opened' hfacing hk (hsame ▸ hheld) hnodup
    exact ⟨answer, st', hreaches hgives, hoffers, fun hnone => hreaches (hagain hnone)⟩

theorem runs_nil : (.nil : Feed k).Runs [] none := by
  refine runs_of_facing (fun _ _ _ => ⟨rfl, rfl⟩) fun st ids current opened hfacing _ hheld _ => ?_
  generalize hparts : upcoming current opened = A at hheld
  cases hheld
  exact absurd hparts hfacing.upcoming_ne_nil

theorem runs_item (v : Val k) (F : Feed k) : (Feed.item v F).Runs [] (some (v, F)) := by
  refine runs_of_facing (fun _ _ h => by cases h) fun st ids current opened hfacing _ hheld hnodup => ?_
  obtain ⟨x, A, hparts⟩ := hheld.item_first
  obtain ⟨tail, rfl, rfl⟩ := hfacing.item_first hparts
  refine ⟨some (x, Node.reattach tail opened), st, Sequence.gives_turn (fun _ => rfl) (gives_of_eq rfl), ?_,
    fun h => absurd h (Option.some_ne_none _)⟩
  rw [Part.found, Node.parts_reattach, ← hparts]
  exact hheld.offers hnodup

theorem closed_following {α : Type} (index : ℕ) (limit : Option ℕ) (source : Source α) :
    (Node.following index limit source).Closed := by
  intro id hid
  unfold Node.following at hid
  split at hid
  · split at hid <;> simp at hid
  · simp at hid

theorem runs_numbered {index : ℕ} {limit : Option ℕ} {source : Source (El k)} {x : El k}
    (hx : source.at? index = some x) (F : Feed k) :
    (Feed.numbered index limit source F).Runs (source.note index).toList
      (some (.here x, (ofParts (Node.following index limit source).parts).append F)) := by
  refine runs_of_facing (fun _ _ h => by cases h) fun st ids current opened hfacing _ hheld hnodup => ?_
  generalize hparts : upcoming current opened = A at hheld
  cases hheld with
  | numbered _ _ _ hrest =>
    obtain ⟨rfl, rfl⟩ := hfacing.numbered_first hparts
    refine ⟨some (x, Node.reattach (Node.following index limit source) opened), st.write (source.note index),
      Sequence.gives_turn (fun force => turn_generated hx force opened st) (gives_of_eq rfl), ?_,
      fun h => absurd h (Option.some_ne_none _)⟩
    rw [Part.found, Node.parts_reattach, upcoming]
    have hwrite := st.moves_write (source.note index)
    have hafter := (Store.holds_ofParts (closed_following index limit source)).append hrest
    exact (hafter.after hnodup hwrite).here x

theorem Runs.next {r : Option (Val k × Feed k)} (h : F.Runs l r) {st : Store ι} {ids : List ℕ} {t : Sequence k}
    (hk : st.keeps = true) (ht : st.Holds t.parts F ids) (hnodup : ids.Nodup) :
    ∃ answer st', Gives (fun fuel => visit fuel t []) st answer st' ∧
      st.Offers ids l st' (Part.found answer) (found r) ∧
      (answer = none → Gives (fun fuel => visit fuel t []) st' none st') :=
  h st ids t [] hk (by rwa [Node.upcoming_nil]) hnodup

theorem runs_stage {S : Stage a k} {I : Feed a} {answer : Option (Val a × Feed a)} {r : Option (Val k × Feed k)}
    {l'' : List Note} (hinput : I.Runs l answer) (hleaves : S.Leaves answer l' G)
    (hrest : (G.append F).Runs l'' r) : (Feed.stage S I F).Runs (l ++ l' ++ l'') r := by
  refine runs_of_facing (fun _ _ h => by cases h) fun st ids current opened hfacing hk hheld hnodup => ?_
  generalize hparts : upcoming current opened = A at hheld
  cases hheld with
  | stage hc ht hmore =>
    obtain ⟨rfl, rfl⟩ := hfacing.cell_first hparts
    refine runs_cell hk hc ht hmore hnodup (fun st₁ hk₁ ht₁ hinner => ?_) hrest
    obtain ⟨found, st₂, hfound, hoffers, -⟩ := hinput.next hk₁ ht₁ hinner
    obtain ⟨held, hheld, hnew, htouched⟩ := hoffers
    obtain ⟨v, st₃, hresume, hleft⟩ := Store.resume_offers hleaves hheld hnew.nodup
    refine ⟨v, st₃, ?_, hleft.from hnew htouched⟩
    simp only [Stage.unfold_plan]
    exact hfound.bind (gives_of_eq hresume)

theorem runs_skip {count : ℕ} {r : Option (Val k × Feed k)} (hinput : I.Skips count l R)
    (hrest : (R.append F).Runs l' r) : (Feed.skip I count F).Runs (l ++ l') r := by
  refine runs_of_facing (fun _ _ h => by cases h) fun st ids current opened hfacing hk hheld hnodup => ?_
  generalize hparts : upcoming current opened = A at hheld
  cases hheld with
  | skip hc ht hmore =>
    obtain ⟨rfl, rfl⟩ := hfacing.cell_first hparts
    exact runs_cell hk hc ht hmore hnodup (fun st₁ hk₁ ht₁ hinner => hinput st₁ _ _ hk₁ ht₁ hinner) hrest

theorem skips_more {v : Val k} {n : ℕ} (hfirst : F.Runs l (some (v, G))) (hrest : G.Skips n l' R) :
    F.Skips (n + 1) (l ++ l') R := by
  intro st ids t hk ht hnodup
  obtain ⟨answer, st₁, hgives, ⟨held, hheld, hnew, htouched⟩, -⟩ := hfirst.next hk ht hnodup
  obtain ⟨x, tail, inner, left, rfl, rfl, -, htail⟩ := hheld.found_some
  obtain ⟨rest, st₂, hadvance, hoffers⟩ := hrest st₁ left tail (htouched.keeps.trans hk) htail
    hnew.nodup.of_append_right
  exact ⟨rest, st₂, hgives.bind hadvance,
    hoffers.from (hnew.sublist (List.sublist_append_right inner left)) htouched⟩

theorem skips_ended {n : ℕ} (h : F.Runs l none) : F.Skips (n + 1) l .nil := by
  intro st ids t hk ht hnodup
  obtain ⟨answer, st₁, hgives, ⟨held, hheld, hnew, htouched⟩, -⟩ := h.next hk ht hnodup
  obtain rfl := hheld.found_none
  refine ⟨.empty, st₁, hgives.bind (gives_of_eq rfl), ?_⟩
  rw [Node.parts_empty]
  exact Store.offers_nil htouched

mutual

theorem Pulls.runs : ∀ {k : Kind ι} {F : Feed k} {l : List Note} {r : Option (Val k × Feed k)},
    F.Pulls l r → F.Runs l r
  | _, _, _, _, .nil => runs_nil
  | _, _, _, _, .item v F => runs_item v F
  | _, _, _, _, .numbered hx F => runs_numbered hx F
  | _, _, _, _, .stage hinput hleaves hrest => runs_stage hinput.runs hleaves hrest.runs
  | _, _, _, _, .skip hinput hrest => runs_skip hinput.skips hrest.runs

theorem Draws.skips : ∀ {k : Kind ι} {F : Feed k} {n : ℕ} {vs : List (Val k)} {l : List Note} {R : Feed k},
    F.Draws n vs l R → F.Skips n l R
  | _, _, _, _, _, _, .zero _ => fun st _ t _ ht hnodup => ⟨t, st, gives_of_eq rfl, ht.offers hnodup⟩
  | _, _, _, _, _, _, .more hfirst hrest => skips_more hfirst.runs hrest.skips
  | _, _, _, _, _, _, .ended h => skips_ended h.runs

end

end Feed

def Val.Shows {k : Kind ι} : Val k → El k → Prop
  | .here y, x => x = y
  | .built _, _ => True
  | .anything, _ => True

theorem Store.Holds.shows {st : Store ι} {x : El k} {v : Val k} {ids : List ℕ}
    (h : st.Holds [.item x] (.item v .nil) ids) : v.Shows x := by
  cases h with
  | here _ _ => exact rfl
  | built _ _ => exact trivial
  | anything _ _ => exact trivial

/-- Extracting elements one after the other is drawing them from the feed. -/
theorem Feed.Draws.extracts {n : ℕ} {vs : List (Val k)} (h : F.Draws n vs l R) {st : Store ι}
    {ids : List ℕ} {s : Sequence k} (hk : st.keeps = true) (hs : st.Holds s.parts F ids)
    (hnodup : ids.Nodup) (seen : Array (El k)) :
    ∃ xs rest st', Gives (fun fuel => Sequence.extract fuel n seen s) st (seen.toList ++ xs, rest) st' ∧
      List.Forall₂ Val.Shows vs xs ∧ st.Moves ids l st' ∧
      (vs.length < n → Gives (fun fuel => Sequence.next fuel rest) st' none st') := by
  induction n generalizing F vs l s st ids seen with
  | zero =>
    cases h
    refine ⟨[], s, st, gives_of_eq ?_, .nil, .refl st ids, fun hlt => absurd hlt (Nat.lt_irrefl 0)⟩
    rw [List.append_nil]
  | succ n ih =>
    cases h with
    | more hfirst hrest =>
      obtain ⟨answer, st₁, hgives, ⟨held, hheld, hnew, htouched⟩, -⟩ := hfirst.runs.next hk hs hnodup
      obtain ⟨x, tail, inner, left, rfl, rfl, hx, htail⟩ := hheld.found_some
      have hleft := hnew.sublist (List.sublist_append_right inner left)
      obtain ⟨xs, rest, st', hextract, hshows, hmoves, hended⟩ :=
        ih hrest (htouched.keeps.trans hk) htail hleft.nodup (seen.push x)
      refine ⟨x :: xs, rest, st', ?_, .cons hx.shows hshows, htouched.trans hmoves hleft.from_or_new,
        fun hlt => hended (Nat.lt_of_succ_lt_succ hlt)⟩
      rw [Array.toList_push, List.append_assoc] at hextract
      exact hgives.bind hextract
    | ended h =>
      obtain ⟨answer, st₁, hgives, ⟨held, hheld, hnew, htouched⟩, hagain⟩ := h.runs.next hk hs hnodup
      obtain rfl := hheld.found_none
      refine ⟨[], s, st₁, ?_, .nil, htouched, fun _ => hagain rfl⟩
      rw [List.append_nil]
      exact hgives.bind (gives_of_eq rfl)

end MemoSequence
