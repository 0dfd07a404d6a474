import MemoSequence.Proofs.Demand.Laws
import MemoSequence.Proofs.Demand.Running
set_option autoImplicit false

namespace MemoSequence

variable {ι : Type} [Basis ι]

mutual

/-- Obtaining `n` elements of a pipeline gives `vs`, and calls for `l`; there are fewer of them only if the
pipeline has come to its end. -/
inductive Plan.Demands : {k : Kind ι} → Plan k → ℕ → List (Val k) → List Note → Prop
  | nothing {k : Kind ι} (p : Plan k) : Demands p 0 [] []
  | source {k : Kind ι} (f : Fn ℕ (El k)) (n : ℕ) :
      Demands (.given (.ofFn f)) n (((List.range n).map f.apply).map .here) ((List.range n).filterMap f.note)
  | listed {k : Kind ι} (xs : List (El k)) (n : ℕ) : Demands (.ofList xs) n ((xs.take n).map .here) []
  | single {k : Kind ι} (x : El k) (n : ℕ) : Demands (.single x) (n + 1) [.here x] []
  | empty {k : Kind ι} (n : ℕ) : Demands (.empty : Plan k) n [] []
  | counting (count n : ℕ) :
      Demands (.given (.upTo (some count)) : Plan .nat) n
        (((List.range count).take n).map .here) []
  | cons {k : Kind ι} {tail : Plan k} {n : ℕ} {vs : List (Val k)} {l : List Note} (x : El k)
      (h : Demands tail n vs l) : Demands (.cons x tail) (n + 1) (.here x :: vs) l
  | append_within {k : Kind ι} {p : Plan k} {n : ℕ} {vs : List (Val k)} {l : List Note}
      (h : Demands p n vs l) (hn : vs.length = n) (q : Plan k) : Demands (.append p q) n vs l
  | append_beyond {k : Kind ι} {p q : Plan k} {n : ℕ} {vs ws : List (Val k)} {l l' : List Note}
      (h : Demands p (vs.length + 1) vs l) (h' : Demands q (n + 1) ws l') :
      Demands (.append p q) (vs.length + (n + 1)) (vs ++ ws) (l ++ l')
  | map {a k : Kind ι} {p : Plan a} {n : ℕ} {xs : List (El a)} {l : List Note} (f : El a → El k)
      (h : Demands p n (xs.map .here) l) : Demands (.map p (.silent f)) n ((xs.map f).map .here) l
  -- The input may itself be made of sequences that are built, where no value can be told.
  | map_any {a k : Kind ι} {p : Plan a} {n : ℕ} {vs : List (Val a)} {l : List Note} (f : El a → El k)
      (h : Demands p n vs l) : Demands (.map p (.silent f)) n (vs.map fun _ => .anything) l
  -- The function keeps the notes here, over an input that calls for nothing: a mapped source.
  | map_noted {a k : Kind ι} {p : Plan a} {n : ℕ} {xs : List (El a)} (f : Fn (El a) (El k))
      (h : Demands p n (xs.map .here) []) :
      Demands (.map p f) n ((xs.map f.apply).map .here) (xs.filterMap f.note)
  | mapPlan {a k : Kind ι} {p : Plan a} {n : ℕ} {vs : List (Val a)} {qs : List (Plan k)} {l : List Note}
      (f : El a → Plan k) (h : Demands p n vs l) (hqs : List.Forall₂ (Val.Becomes · f ·) vs qs) :
      Demands (.mapPlan p f fun _ => none) n (qs.map .built) l
  -- `v` has the last element: the sequences before it have too few in all, it has enough.
  | flatten {k : Kind ι} {p : Plan (.seq k)} {q : Plan k} {n : ℕ} {vs : List (Val (.seq k))}
      {v : Val (.seq k)} {ws us : List (Val k)} {l : List Note} (h : Demands p (vs.length + 1) (vs ++ [v]) l)
      (hvs : Pours vs ws (List.replicate vs.length [])) (hv : v.Opens q) (hq : Demands q (n + 1) us [])
      (hn : us.length = n + 1) : Demands (.flatten p) (ws.length + (n + 1)) (ws ++ us) l
  | flatten_ended {k : Kind ι} {p : Plan (.seq k)} {n : ℕ} {vs : List (Val (.seq k))} {ws : List (Val k)}
      {l : List Note} (h : Demands p (vs.length + 1) vs l)
      (hvs : Pours vs ws (List.replicate vs.length [])) (hn : ws.length < n) : Demands (.flatten p) n ws l
  -- Where the inner sequences call for something too, the notes of the input come in between, so they have
  -- to be known element by element.
  | flatten_noted {k : Kind ι} {p : Plan (.seq k)} {q : Plan k} {n : ℕ} {vs : List (Val (.seq k))}
      {v : Val (.seq k)} {ws us : List (Val k)} {ls ls' : List (List Note)} {l l' : List Note}
      (hlen : ls.length = vs.length)
      (h : ∀ i ≤ vs.length + 1, Demands p i ((vs ++ [v]).take i) ((ls ++ [l]).take i).flatten)
      (hvs : Pours vs ws ls') (hv : v.Opens q) (hq : Demands q (n + 1) us l') (hn : us.length = n + 1) :
      Demands (.flatten p) (ws.length + (n + 1)) (ws ++ us)
        ((List.zipWith (· ++ ·) ls ls').flatten ++ (l ++ l'))
  | flatten_noted_ended {k : Kind ι} {p : Plan (.seq k)} {n : ℕ} {vs : List (Val (.seq k))}
      {ws : List (Val k)} {ls ls' : List (List Note)} {l : List Note} (hlen : ls.length = vs.length)
      (h : ∀ i ≤ vs.length + 1, Demands p i (vs.take i) ((ls ++ [l]).take i).flatten)
      (hvs : Pours vs ws ls') (hn : ws.length < n) :
      Demands (.flatten p) n ws ((List.zipWith (· ++ ·) ls ls').flatten ++ l)
  | take {k : Kind ι} {p : Plan k} {n count : ℕ} {vs : List (Val k)} {l : List Note}
      (h : Demands p (min n count) vs l) : Demands (.take p count) n vs l
  | takeWhile {k : Kind ι} {p : Plan k} {n : ℕ} {xs : List (El k)} {l : List Note} {test : El k → Bool}
      (h : Demands p n (xs.map .here) l) (hxs : ∀ x ∈ xs, test x = true) :
      Demands (.takeWhile p (.silent test)) n (xs.map .here) l
  | takeWhile_failed {k : Kind ι} {p : Plan k} {n : ℕ} {xs : List (El k)} {x : El k} {l : List Note}
      {test : El k → Bool} (h : Demands p (xs.length + 1) ((xs ++ [x]).map .here) l)
      (hxs : ∀ x ∈ xs, test x = true) (hx : test x = false) (hn : xs.length < n) :
      Demands (.takeWhile p (.silent test)) n (xs.map .here) l
  | skip {k : Kind ι} {p : Plan k} {n count : ℕ} {vs : List (Val k)} {l : List Note}
      (h : Demands p (count + (n + 1)) vs l) : Demands (.skip p count) (n + 1) (vs.drop count) l
  | filter {k : Kind ι} {p : Plan k} {xs : List (El k)} {x : El k} {l : List Note} {test : El k → Bool}
      (h : Demands p (xs.length + 1) ((xs ++ [x]).map .here) l) (hx : test x = true) :
      Demands (p.filter (.silent test)) ((xs.filter test).length + 1) (((xs ++ [x]).filter test).map .here) l
  | filter_ended {k : Kind ι} {p : Plan k} {n : ℕ} {xs : List (El k)} {l : List Note} {test : El k → Bool}
      (h : Demands p (xs.length + 1) (xs.map .here) l) (hn : (xs.filter test).length < n) :
      Demands (p.filter (.silent test)) n ((xs.filter test).map .here) l
  | scan {a k : Kind ι} {σ : Type} {p : Plan a} {n : ℕ} {xs : List (El a)} {l : List Note} (s : σ)
      (g : σ × El a → El k × σ) (h : Demands p n (xs.map .here) l) :
      Demands (.scan p s (.silent g)) n ((scanValues g s xs).map .here) l
  | scan_any {a k : Kind ι} {σ : Type} {p : Plan a} {n : ℕ} {vs : List (Val a)} {l : List Note} (s : σ)
      {g : σ × El a → El k × σ} (step : σ → σ) (hg : ∀ s x, (g (s, x)).2 = step s) (h : Demands p n vs l) :
      Demands (.scan p s (.silent g)) n (vs.map fun _ => .anything) l
  | stateScan {a k : Kind ι} {σ : Type} {p : Plan a} {n : ℕ} {xs : List (El a)} {l : List Note} (s : σ)
      (g : σ × El a → List (El k) × σ) (h : Demands p n (xs.map .here) l) :
      Demands (.stateScan p s (.silent g)) n (((scanValues g s xs).map Node.ofList).map .here) l
  | stateScanned {a k : Kind ι} {σ : Type} {p : Plan a} {n : ℕ} {xs : List (El a)} {x : El a} {l : List Note}
      {s : σ} {g : σ × El a → List (El k) × σ} (h : Demands p (xs.length + 1) ((xs ++ [x]).map .here) l)
      (hlt : (scanOutputs g s xs).length < n) (hle : n ≤ (scanOutputs g s (xs ++ [x])).length) :
      Demands (.stateScanned p s (.silent g)) n (((scanOutputs g s (xs ++ [x])).take n).map .here) l
  | stateScanned_ended {a k : Kind ι} {σ : Type} {p : Plan a} {n : ℕ} {xs : List (El a)} {l : List Note}
      {s : σ} {g : σ × El a → List (El k) × σ} (h : Demands p (xs.length + 1) (xs.map .here) l)
      (hn : (scanOutputs g s xs).length < n) :
      Demands (.stateScanned p s (.silent g)) n ((scanOutputs g s xs).map .here) l
  | inclusiveScan {a k : Kind ι} {p : Plan a} {n : ℕ} {xs : List (El a)} {l : List Note} (s : El k)
      (f : El k × El a → El k) (h : Demands p n (xs.map .here) l) :
      Demands (p.inclusiveScan s (.silent f)) n ((scanValues (fun x => (f x, f x)) s xs).map .here) l
  | exclusiveScan {a k : Kind ι} {p : Plan a} {n : ℕ} {xs : List (El a)} {l : List Note} (s : El k)
      (f : El k × El a → El k) (h : Demands p n (xs.map .here) l) :
      Demands (p.exclusiveScan s (.silent f)) n ((scanValues (fun x => (x.1, f x)) s xs).map .here) l
  | entries {k : Kind ι} {p : Plan k} {n : ℕ} {xs : List (El k)} {l : List Note}
      (h : Demands p n (xs.map .here) l) :
      Demands p.entries n ((xs.zipIdx.map Prod.swap).map .here) l
  | terminated {k : Kind ι} {p : Plan k} {n : ℕ} {xs : List (El k)} {l : List Note}
      (h : Demands p n (xs.map .here) l) (hn : xs.length = n) :
      Demands p.terminated n ((xs.map some).map .here) l
  | terminated_ended {k : Kind ι} {p : Plan k} {n : ℕ} {xs : List (El k)} {l : List Note}
      (h : Demands p (xs.length + 1) (xs.map .here) l) (hn : xs.length < n) :
      Demands p.terminated n ((xs.map some).map (.here (k := .option k)) ++ [.here none]) l

/-- The sequences `vs` have the elements `ws` in all; the notes are those of the sequences one by one, each of
them asked for one element more than it has. -/
inductive Plan.Pours : {k : Kind ι} → List (Val (.seq k)) → List (Val k) → List (List Note) → Prop
  | none {k : Kind ι} : Pours ([] : List (Val (.seq k))) [] []
  | one {k : Kind ι} {v : Val (.seq k)} {q : Plan k} {vs : List (Val (.seq k))} {us ws : List (Val k)}
      {l : List Note} {ls : List (List Note)} (hv : v.Opens q) (hq : Demands q (us.length + 1) us l)
      (hrest : Pours vs ws ls) : Pours (v :: vs) (us ++ ws) (l :: ls)

end

namespace Plan
variable {k : Kind ι} {p : Plan k} {n : ℕ} {vs ws : List (Val k)} {l l' : List Note} {R R' : Feed k}

theorem obtains (st : Store ι) (hp : p.Closed) (hk : st.keeps = true) (h : p.feed.Draws n vs l R) :
    ∃ xs rest st', Gives (fun fuel => Sequence.extract fuel n #[] (p.build st).1) (p.build st).2
        (xs, rest) st' ∧ List.Forall₂ Val.Shows vs xs ∧
      st'.journal.toList = st.journal.toList ++ l ∧
      (vs.length < n → Gives (fun fuel => Sequence.next fuel rest) st' none st') := by
  obtain ⟨ids, hholds, hids, hbuild⟩ := Store.build_offers hp st
  obtain ⟨xs, rest, st', hextract, hshows, hmoves, hended⟩ :=
    h.extracts (hbuild.keeps.trans hk) hholds hids.nodup #[]
  refine ⟨xs, rest, st', hextract, hshows, ?_, hended⟩
  rw [hmoves.journal, hbuild.journal, List.append_nil]

/-- The feed of a plan is run in one store, so it has one way only to be drawn from. -/
theorem draws_unique (hp : p.Closed) (h : p.feed.Draws n vs l R) (h' : p.feed.Draws n ws l' R') : l = l' := by
  obtain ⟨xs, rest, st, hgives, -, hjournal, -⟩ := obtains Store.empty hp rfl h
  obtain ⟨xs', rest', st', hgives', -, hjournal', -⟩ := obtains Store.empty hp rfl h'
  obtain ⟨-, rfl⟩ := hgives.unique hgives'
  exact List.append_cancel_left (hjournal.symm.trans hjournal')

theorem eq_of_take_flatten {ls ls' : List (List Note)} (hlen : ls.length = ls'.length)
    (h : ∀ i ≤ ls.length, (ls.take i).flatten = (ls'.take i).flatten) : ls = ls' := by
  refine List.ext_getElem hlen fun i hi hi' => ?_
  have hnext := h (i + 1) hi
  rw [← List.take_append_getElem hi, ← List.take_append_getElem hi', List.flatten_append,
    List.flatten_append, h i hi.le] at hnext
  simpa using List.append_cancel_left hnext

theorem steps_unique {ls ls' : List (List Note)} (hp : p.Closed) (hsteps : p.feed.Steps vs ls R)
    (hlen : ls'.length = vs.length)
    (h : ∀ i ≤ vs.length, ∃ R, p.feed.Draws i (vs.take i) (ls'.take i).flatten R) : ls = ls' := by
  have hall := hsteps.length_eq
  refine eq_of_take_flatten (hall.trans hlen.symm) fun i hi => ?_
  obtain ⟨G, htaken⟩ := hsteps.take i
  obtain ⟨R', hdraws⟩ := h i (hall ▸ hi)
  have hfirst := htaken.draws
  rw [List.length_take_of_le (hall ▸ hi)] at hfirst
  exact draws_unique hp hfirst hdraws

section Each
variable {ls : List (List Note)} (hp : p.Closed) (hlen : ls.length = vs.length)
include hp hlen

theorem steps_of_draws (h : ∀ i ≤ vs.length, ∃ R, p.feed.Draws i (vs.take i) (ls.take i).flatten R) :
    ∃ R, p.feed.Steps vs ls R := by
  obtain ⟨R, hall⟩ := h vs.length le_rfl
  obtain ⟨ls', hsteps, -⟩ := hall.steps (by simp)
  rw [List.take_length] at hsteps
  obtain rfl := steps_unique hp hsteps hlen h
  exact ⟨R, hsteps⟩

theorem steps_of_draws_ended
    (h : ∀ i ≤ vs.length + 1, ∃ R, p.feed.Draws i (vs.take i) ((ls ++ [l]).take i).flatten R) :
    ∃ R, p.feed.Steps vs ls R ∧ R.Pulls l none := by
  obtain ⟨R, hall⟩ := h (vs.length + 1) le_rfl
  rw [List.take_of_length_le (Nat.le_succ _), List.take_of_length_le (by simp [hlen]), List.flatten_append,
    List.flatten_singleton] at hall
  obtain ⟨ls', l', G, hsteps, hend, hnotes⟩ := hall.steps_ended
  obtain rfl := steps_unique hp hsteps hlen fun i hi => by
    have hfirst := h i (Nat.le_succ_of_le hi)
    rwa [List.take_append_of_le_length (hlen ▸ hi)] at hfirst
  obtain rfl := List.append_cancel_left hnotes
  exact ⟨G, hsteps, hend⟩

end Each

end Plan

section Table
open Feed

mutual

theorem Plan.Demands.draws : ∀ {k : Kind ι} {p : Plan k} {n : ℕ} {vs : List (Val k)} {l : List Note},
    p.Demands n vs l → p.Closed → ∃ R, p.feed.Draws n vs l R
  | _, _, _, _, _, .nothing _, _ => ⟨_, .zero _⟩
  | _, _, _, _, _, .source f n, _ => draws_ofFn f n
  | _, _, _, _, _, .listed xs n, _ => draws_ofList xs n
  | _, _, _, _, _, .single x n, _ => ⟨_, draws_single x n⟩
  | _, _, _, _, _, .empty n, _ => ⟨_, draws_empty n⟩
  | _, _, _, _, _, .counting count n, _ => draws_upTo count n
  | _, _, _, _, _, .cons x h, hp => by
    obtain ⟨R, hdraws⟩ := h.draws hp
    exact ⟨R, .more (.item _ _) hdraws⟩
  | _, _, _, _, _, .append_within h hn q, hp => by
    obtain ⟨R, hdraws⟩ := h.draws hp.1
    exact ⟨_, hdraws.append_within hn q.feed⟩
  | _, _, _, _, _, .append_beyond h h', hp => by
    obtain ⟨R, hdraws⟩ := h.draws hp.1
    obtain ⟨R', hdraws'⟩ := h'.draws hp.2
    exact ⟨R', hdraws.append_beyond hdraws'⟩
  | _, _, _, _, _, .map f h, hp => by
    obtain ⟨R, hdraws⟩ := h.draws hp
    exact draws_worker (fun _ => rfl) (emits_map f _) hdraws
  | _, _, _, _, _, .map_any f h, hp => by
    obtain ⟨R, hdraws⟩ := h.draws hp
    exact draws_worker_any id (fun _ => rfl) (fun _ x => ⟨f x, rfl⟩) hdraws
  | _, _, _, _, _, .map_noted f h, hp => by
    obtain ⟨R, hdraws⟩ := h.draws hp
    exact draws_map_noted hdraws rfl
  | _, _, _, _, _, .mapPlan f h hqs, hp => by
    obtain ⟨R, hdraws⟩ := h.draws hp
    exact draws_mapPlan (fun _ => rfl) hqs hdraws
  | _, _, _, _, _, .flatten h hvs hv hq hn, hp => by
    obtain ⟨R, hdraws⟩ := h.draws hp
    obtain ⟨R', hinner⟩ := hq.draws hv.closed
    exact hvs.pours.draws_last rfl hdraws hv hinner hn
  | _, _, _, _, _, .flatten_ended h hvs hn, hp => by
    obtain ⟨R, hdraws⟩ := h.draws hp
    exact ⟨_, hvs.pours.draws_ended rfl hdraws hn⟩
  | _, .flatten p, _, _, _, .flatten_noted hlen h hvs hv hq hn, hp => by
    obtain ⟨R', hinner⟩ := hq.draws hv.closed
    obtain ⟨R, hsteps⟩ := Plan.steps_of_draws (p := p) hp (by simp [hlen])
      fun i hi => (h i (by simpa using hi)).draws hp
    exact hvs.pours.last hsteps hv hinner hn
  | _, .flatten p, _, _, _, .flatten_noted_ended hlen h hvs hn, hp => by
    obtain ⟨R, hsteps, hend⟩ := Plan.steps_of_draws_ended (p := p) hp hlen fun i hi => (h i hi).draws hp
    exact ⟨_, hvs.pours.ended hsteps hend hn⟩
  | _, .take _ 0, n, _, _, .take h, hp => by
    obtain ⟨R, hdraws⟩ := h.draws hp
    rw [Nat.min_zero] at hdraws
    cases hdraws
    exact ⟨_, draws_nil n⟩
  | _, .take _ (_ + 1), _, _, _, .take h, hp => by
    obtain ⟨R, hdraws⟩ := h.draws hp
    exact draws_take hdraws
  | _, _, _, _, _, .takeWhile h hxs, hp => by
    obtain ⟨R, hdraws⟩ := h.draws hp
    exact draws_worker (fun _ => rfl) (emits_takeWhile hxs) hdraws
  | _, _, _, _, _, .takeWhile_failed h hxs hx hn, hp => by
    obtain ⟨R, hdraws⟩ := h.draws hp
    exact draws_worker_stopped (fun _ => rfl) (emits_takeWhile hxs) (if_neg (by simp [Fn.silent, hx])) hn hdraws
  | _, _, _, _, _, .skip h, hp => by
    obtain ⟨R, hdraws⟩ := h.draws hp
    exact ⟨R, draws_skip hdraws⟩
  | _, _, _, _, _, .filter h hx, hp => by
    obtain ⟨R, hdraws⟩ := h.draws hp
    exact draws_filter (fun _ => rfl) hx hdraws
  | _, _, _, _, _, .filter_ended h hn, hp => by
    obtain ⟨R, hdraws⟩ := h.draws hp
    exact ⟨_, draws_filter_ended (fun _ => rfl) hdraws hn⟩
  | _, _, _, _, _, .scan s g h, hp => by
    obtain ⟨R, hdraws⟩ := h.draws hp
    obtain ⟨s', hemits⟩ := emits_scan g s _
    exact draws_worker (fun _ => rfl) hemits hdraws
  | _, _, _, _, _, .scan_any s step hg h, hp => by
    obtain ⟨R, hdraws⟩ := h.draws hp
    exact draws_worker_any step (fun _ => rfl) (fun s x => ⟨_, congrArg some (Prod.ext rfl (hg s x))⟩) hdraws
  | _, _, _, _, _, .stateScan s g h, hp => by
    obtain ⟨R, hdraws⟩ := h.draws hp
    obtain ⟨s', hemits⟩ := emits_stateScan g s _
    exact draws_worker (fun _ => rfl) hemits hdraws
  | _, _, _, _, _, .stateScanned h hlt hle, hp => by
    obtain ⟨R, hdraws⟩ := h.draws hp
    exact draws_stateScanned (fun _ => rfl) hdraws hlt hle
  | _, _, _, _, _, .stateScanned_ended h hn, hp => by
    obtain ⟨R, hdraws⟩ := h.draws hp
    exact ⟨_, draws_stateScanned_ended (fun _ => rfl) hdraws hn⟩
  | _, _, _, _, _, .inclusiveScan s f h, hp => by
    obtain ⟨R, hdraws⟩ := h.draws hp
    exact draws_single_outputs (fun x => (f x, f x)) (fun _ => rfl) hdraws
  | _, _, _, _, _, .exclusiveScan s f h, hp => by
    obtain ⟨R, hdraws⟩ := h.draws hp
    exact draws_single_outputs (fun x => (x.1, f x)) (fun _ => rfl) hdraws
  | _, _, _, _, _, .entries h, hp => by
    obtain ⟨R, hdraws⟩ := h.draws hp
    obtain ⟨i, hemits⟩ := emits_entries (ι := ι) _
    exact draws_worker (fun _ => rfl) hemits hdraws
  | _, _, _, _, _, .terminated h hn, hp => by
    obtain ⟨R, hdraws⟩ := h.draws hp.1
    obtain ⟨R', hmapped⟩ := draws_worker (k := .option _) (fun _ => rfl) (emits_map some _) hdraws
    exact ⟨_, hmapped.append_within (by simpa using hn) _⟩
  | _, _, _, _, _, .terminated_ended h hn, hp => by
    obtain ⟨R, hdraws⟩ := h.draws hp.1
    obtain ⟨R', hmapped⟩ := draws_worker (k := .option _) (fun _ => rfl) (emits_map some _) hdraws
    exact hmapped.append_single none (by simp) hn

theorem Plan.Pours.pours : ∀ {k : Kind ι} {vs : List (Val (.seq k))} {ws : List (Val k)}
    {ls : List (List Note)}, Plan.Pours vs ws ls → Feed.Pours vs ws ls
  | _, _, _, _, .none => pours_nil
  | _, _, _, _, .one hv hq hrest => by
    obtain ⟨R, hdraws⟩ := hq.draws hv.closed
    exact pours_cons hv hdraws rfl hrest.pours

end

end Table

/-- A sequence for each element, one after the other. -/
theorem Plan.Demands.flatMap {a k : Kind ι} {p : Plan a} {f : El a → Plan k} {n : ℕ} {vs : List (Val a)}
    {v : Val a} {qs : List (Plan k)} {q : Plan k} {ws us : List (Val k)} {l : List Note}
    (h : p.Demands (vs.length + 1) (vs ++ [v]) l) (hqs : List.Forall₂ (Val.Becomes · f ·) vs qs)
    (hq : v.Becomes f q) (hclosed : q.Closed)
    (hpours : Plan.Pours (qs.map .built) ws (List.replicate vs.length []))
    (hdemands : q.Demands (n + 1) us []) (hn : us.length = n + 1) :
    (p.flatMap f fun _ => none).Demands (ws.length + (n + 1)) (ws ++ us) l := by
  have hparts := Plan.Demands.mapPlan f h (List.rel_append hqs (.cons hq .nil))
  have hlen : vs.length = (qs.map Val.built).length := by rw [List.length_map, hqs.length_eq]
  rw [List.map_append, hlen] at hparts
  rw [hlen] at hpours
  exact .flatten hparts hpours (.built hclosed) hdemands hn

theorem Sequence.extract_ended {k : Kind ι} {s : Sequence k} {st : Store ι}
    (h : Gives (fun fuel => Sequence.next fuel s) st none st) (n : ℕ) :
    Gives (fun fuel => Sequence.extract fuel n #[] s) st ([], s) st := by
  cases n with
  | zero => exact gives_of_eq rfl
  | succ n => exact h.bind (gives_of_eq rfl)

/-- Building a pipeline calls nothing. Obtaining `n` elements of it in one traversal gives the elements of the
table, calls for exactly the notes of the table, and does so whatever fuel has been enough. Once the end has
been met, nothing is called however often more elements are asked for. -/
theorem pipeline_demand {k : Kind ι} (p : Plan k) (st : Store ι) :
    (p.build st).2.journal = st.journal ∧
    ∀ n vs l, p.Closed → st.keeps = true → p.Demands n vs l → ∃ xs rest st',
      Gives (fun fuel => Sequence.extract fuel n #[] (p.build st).1) (p.build st).2 (xs, rest) st' ∧
      List.Forall₂ Val.Shows vs xs ∧ st'.journal.toList = st.journal.toList ++ l ∧
      (∀ fuel r, Sequence.extract fuel n #[] (p.build st).1 (p.build st).2 = .ok r → r = ((xs, rest), st')) ∧
      (vs.length < n → ∀ m, Gives (fun fuel => Sequence.extract fuel m #[] rest) st' ([], rest) st') := by
  have hbuild := Store.moves_build p st
  refine ⟨Array.ext' (hbuild.journal.trans (List.append_nil _)), fun n vs l hp hk h => ?_⟩
  obtain ⟨R, hdraws⟩ := h.draws hp
  obtain ⟨xs, rest, st', hgives, hshows, hjournal, hended⟩ := Plan.obtains st hp hk hdraws
  refine ⟨xs, rest, st', hgives, hshows, hjournal, fun fuel r hr => ?_,
    fun hlt m => Sequence.extract_ended (hended hlt) m⟩
  obtain ⟨hanswer, hstore⟩ := hgives.of_returned (fun hle => extract_extends hle n #[] _) hr
  exact Prod.ext hanswer hstore

def block (count : ℕ) : Plan (.nat : Kind Atom) := .given (.upTo (some count))

def tails : Plan (.nat : Kind Atom) :=
  .flatMap (.mapPlan (.given (.ofFn ⟨id, some⟩) : Plan .nat) block fun _ => none)
    (fun numbers => .skip (.given numbers) 1) fun _ => none

def sampled : Plan (.nat : Kind Atom) :=
  .append (.take (.skip (tails.filter (.silent (· != 1))) 1) 2) (.ofList [7])

theorem sampled_closed : sampled.Closed := by
  exact ⟨Node.closed_ofFn ⟨id, some⟩, Feed.closed_ofList (k := .nat) [7]⟩

theorem block_closed (count : ℕ) : (block count).Closed := by
  unfold block Plan.Closed Node.upTo
  split <;> simp [Node.Closed]

theorem tail_becomes (count : ℕ) :
    (Val.built (block count)).Becomes (fun numbers => .skip (.given numbers) 1) (.skip (block count) 1) :=
  Val.becomes_built (C := fun p => .skip p 1) (fun F => .skip F 1 .nil) (.skip 1) rfl

theorem tail_demands (count n : ℕ) :
    (Plan.skip (block count) 1).Demands (n + 1)
      ((((List.range count).take (1 + (n + 1))).drop 1).map .here) [] := by
  rw [List.map_drop]
  exact .skip (.counting count (1 + (n + 1)))

theorem tails_poured (counts : List ℕ) :
    Plan.Pours ((counts.map fun count => Plan.skip (block count) 1).map .built)
      ((counts.flatMap fun count => (List.range count).drop 1).map .here)
      (List.replicate counts.length []) := by
  induction counts with
  | nil => exact .none
  | cons count counts ih =>
    have hcount := tail_demands count (count - 1)
    rw [List.take_of_length_le (by simp; omega)] at hcount
    rw [List.flatMap_cons, List.map_append]
    exact .one (.built (block_closed count)) (by simpa using hcount) ih

theorem tails_demands : tails.Demands 6 ([1, 1, 2, 1, 2, 3].map .here) [0, 1, 2, 3, 4] := by
  have hsource := Plan.Demands.source (ι := Atom) (k := .nat) ⟨id, some⟩ 5
  have hblocks := Plan.Demands.mapPlan block hsource (Val.becomes_each fun count _ => block_closed count)
  have htails : List.Forall₂ (Val.Becomes · fun numbers => Plan.skip (.given numbers) 1)
      (([0, 1, 2, 3].map block).map .built) ([0, 1, 2, 3].map fun count => Plan.skip (block count) 1) := by
    simp only [List.forall₂_map_left_iff, List.forall₂_map_right_iff]
    exact List.forall₂_same.2 fun count _ => tail_becomes count
  exact Plan.Demands.flatMap (n := 2) hblocks htails (tail_becomes 4) (block_closed 4)
    (tails_poured [0, 1, 2, 3]) (tail_demands 4 2) rfl

theorem sampled_demands : sampled.Demands 3 [.here 2, .here 3, .here 7] [0, 1, 2, 3, 4] := by
  have hfound : (tails.filter (.silent (· != 1))).Demands (1 + (1 + 1)) [.here 2, .here 2, .here 3]
      [0, 1, 2, 3, 4] := @Plan.Demands.filter Atom _ .nat _ [1, 1, 2, 1, 2] 3 _ (· != 1) tails_demands rfl
  have htwo : (Plan.take (.skip (tails.filter (.silent (· != 1))) 1) 2).Demands (2 + 1) [.here 2, .here 3]
      [0, 1, 2, 3, 4] := .take (.skip hfound)
  exact @Plan.Demands.append_beyond Atom _ .nat _ _ 0 [.here 2, .here 3] _ _ _ htwo (.listed [7] 1)

theorem sampled_obtained :
    (sampled.build Store.empty).2.journal = #[] ∧
    ∃ rest st', Gives (fun fuel => Sequence.extract fuel 3 #[] (sampled.build Store.empty).1)
        (sampled.build Store.empty).2 ([2, 3, 7], rest) st' ∧ st'.journal.toList = [0, 1, 2, 3, 4] := by
  obtain ⟨hbuilt, hdemand⟩ := pipeline_demand sampled Store.empty
  obtain ⟨xs, rest, st', hgives, hshows, hjournal, -⟩ := hdemand 3 _ _ sampled_closed rfl sampled_demands
  cases hshows with
  | cons h₁ hshows =>
    cases hshows with
    | cons h₂ hshows =>
      cases hshows with
      | cons h₃ hshows =>
        cases hshows
        obtain ⟨rfl, rfl, rfl⟩ : _ = 2 ∧ _ = 3 ∧ _ = 7 := ⟨h₁, h₂, h₃⟩
        exact ⟨hbuilt, rest, st', hgives, hjournal⟩

end MemoSequence
