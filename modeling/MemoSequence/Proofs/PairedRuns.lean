import MemoSequence.Proofs.Pairing
import MemoSequence.Proofs.Replay
import MemoSequence.Proofs.Settled
set_option autoImplicit false

namespace MemoSequence
open Sequence (Formed)

variable {ι : Type} [Basis ι] {k a : Kind ι} {J : Pairing ι} {b : J.Index}

def Sequence.Extracted (answer : Option (El k × Sequence k)) (w : World ι) : Prop :=
  ∀ p, answer = some p → El.Formed w k p.1 ∧ Formed w p.2

/-- An extraction that goes side by side. -/
def Pairing.Extracts (J : Pairing ι) (next : Extraction ι) (seen : Extraction.Moments ι) : Prop :=
  ∀ ⦃b k⦄ ⦃s : Sequence k⦄, J.Suffice b (Formed · s) →
    J.Joint b (next k s) (seen k s) Sequence.Extracted

section Unfolding
open Pairing
variable {next : Extraction ι} {seen : Extraction.Moments ι}

theorem Plan.Asks.joint (hn : J.Extracts next seen) {F : Plan a → Plan k} (hF : Plan.Asks F)
    {input : Plan a} (hp : J.Suffice b (F input).Meaningful)
    {more : Option (El a × Sequence a) → Run ι (Sequence k)} (hnone : more none = pure .empty)
    (hsome : ∀ x tail b', J.Suffice b' (El.Formed · a x) →
      J.Suffice b' (F (.given tail)).Meaningful →
      J.Joint b' (more (some (x, tail))) .none fun v w => Formed w v) :
    J.Joint b (do
      let s ← Run.build input
      let answer ← next a s
      more answer) (Run.during (Run.build input) .none (seen a)) fun v w => Formed w v := by
  refine (joint_build (hp.imp fun _ => hF.input)).bind fun s b₁ hb₁ hs => ?_
  refine (hn hs).last fun answer b₂ hb₂ hx => ?_
  rcases answer with _ | ⟨x, tail⟩
  · rw [hnone]
    exact joint_pure fun _ _ => Node.Formed.empty
  · refine hsome x tail b₂ (hx.imp fun w hx => (hx _ rfl).1) ?_
    exact (hp.grown (J.trans hb₁ hb₂)).imp₂ hx fun w hw hx =>
      hF.replace hw (Plan.meaningful_given.2 (hx _ rfl).2)

theorem joint_advance (hn : J.Extracts next seen) (count : Nat) {s : Sequence k}
    (hs : J.Suffice b (Formed · s)) :
    J.Joint b (Sequence.advance next count s) (Sequence.advanceMoments next seen count s)
      fun v w => Formed w v := by
  induction count generalizing s b with
  | zero => exact joint_pure hs
  | succ count ih =>
    refine (hn hs).bind fun answer b' hb hx => ?_
    cases answer with
    | none => exact joint_pure fun _ _ => Node.Formed.empty
    | some p => exact ih (hx.imp fun w hx => (hx p rfl).2)

section Results
variable {w : World ι} {x : El a} {tail : Sequence a}

theorem Plan.meaningful_mapped {f : Fn (El a) (El k)}
    (h : (Plan.map (.given tail) f).Meaningful w) (hx : El.Formed w a x) :
    (Plan.cons (f.apply x) (.map (.given tail) f)).Meaningful w := by
  refine meaningful_cons.2 ⟨?_, h⟩
  obtain ⟨_, T, g, -, hg, -⟩ := h
  exact (hg w List.prefix_rfl x _ ⟨hx, rfl⟩).1

theorem Plan.meaningful_mapped_plan {f : El a → Plan k} {note : El a → Option Note} {input : Plan a}
    (h : (Plan.mapPlan input f note).Meaningful w) (hx : El.Formed w a x) :
    (f x).Meaningful w := by
  obtain ⟨_, T, g, -, hg, -⟩ := h
  exact ⟨_, hg w List.prefix_rfl x _ ⟨hx, rfl⟩⟩

theorem Plan.meaningful_scanned {σ : Type} {state : σ} {step : Fn (σ × El a) (El k × σ)}
    (h : (Plan.scan (.given tail) state step).Meaningful w) (hx : El.Formed w a x) :
    (Plan.cons (step.apply (state, x)).1
      (.scan (.given tail) (step.apply (state, x)).2 step)).Meaningful w := by
  obtain ⟨_, T, τ, R, t, g, hR, hT, ht, hg, -⟩ := h
  obtain ⟨hy, hs⟩ := hg w List.prefix_rfl (state, x) (t, _) ⟨ht, hx, rfl⟩
  exact meaningful_cons.2 ⟨hy.1, _, T, τ, R, _, g, hR, hT, hs, hg, rfl⟩

theorem Plan.meaningful_stateScanned {σ : Type} {state : σ}
    {step : Fn (σ × El a) (List (El k) × σ)}
    (h : (Plan.stateScan (.given tail) state step).Meaningful w) (hx : El.Formed w a x) :
    (Plan.cons (Node.ofList (step.apply (state, x)).1 : Sequence k)
      (.stateScan (.given tail) (step.apply (state, x)).2 step)).Meaningful w := by
  obtain ⟨_, T, τ, R, t, g, hR, hT, ht, hg, -⟩ := h
  obtain ⟨hy, hs⟩ := hg w List.prefix_rfl (state, x) (t, _) ⟨ht, hx, rfl⟩
  exact meaningful_cons.2
    ⟨(Sequence.reading_ofList hy).1, _, T, τ, R, _, g, hR, hT, hs, hg, rfl⟩

end Results

theorem joint_unfold_mapPlan (hn : J.Extracts next seen) {input : Plan a} {f : El a → Plan k}
    {note : El a → Option Note} (hp : J.Suffice b (Plan.mapPlan input f note).Meaningful) :
    J.Joint b ((Plan.mapPlan input f note).unfold next) ((Plan.mapPlan input f note).moments next seen)
      fun v w => Formed w v := by
  refine (Plan.asks_mapPlan f note).joint hn hp rfl fun x tail b₁ hx hrest => ?_
  refine (joint_write (note x)).last fun _ b₂ hb₂ _ => ?_
  have hf := (hrest.imp₂ hx fun _ => Plan.meaningful_mapped_plan).grown hb₂
  refine (joint_build hf).last fun inner b₃ hb₃ hinner => joint_build ?_
  exact hinner.imp₂ (hrest.grown (J.trans hb₂ hb₃)) fun w hi hw => Plan.meaningful_cons.2 ⟨hi, hw⟩

theorem joint_unfold_takeWhile (hn : J.Extracts next seen) {input : Plan k} {p : Fn (El k) Bool}
    (hp : J.Suffice b (Plan.takeWhile input p).Meaningful) :
    J.Joint b ((Plan.takeWhile input p).unfold next) ((Plan.takeWhile input p).moments next seen)
      fun v w => Formed w v := by
  refine (Plan.asks_takeWhile p).joint hn hp rfl fun x tail b₁ hx hrest => ?_
  refine (joint_call p x).last fun keep b₂ hb₂ _ => ?_
  cases keep with
  | true =>
    exact joint_build ((hx.imp₂ hrest fun w hx hw => Plan.meaningful_cons.2 ⟨hx, hw⟩).grown hb₂)
  | false => exact joint_pure fun _ _ => Node.Formed.empty

theorem joint_unfold (hn : J.Extracts next seen) {p : Plan k} (hp : J.Suffice b p.Meaningful) :
    J.Joint b (p.unfold next) (p.moments next seen) fun v w => Formed w v := by
  cases p with
  | given s => exact joint_pure (hp.imp fun _ => Plan.meaningful_given.1)
  | cons head tail => exact joint_build hp
  | append a b => exact joint_build hp
  | defer note body =>
    refine (joint_write note).last fun _ b' hb _ => joint_build ?_
    exact (hp.imp fun _ => Plan.meaningful_defer.1).grown hb
  | map input f =>
    refine (Plan.asks_map f).joint hn hp rfl fun x tail b₁ hx hrest => ?_
    refine (joint_call f x).last fun y b₂ hb₂ hy => joint_build fun w hw => ?_
    obtain rfl := hy w hw
    exact Plan.meaningful_mapped (hrest.grown hb₂ w hw) (hx.grown hb₂ w hw)
  | mapPlan input f note => exact joint_unfold_mapPlan hn hp
  | flatten outer =>
    refine Plan.asks_flatten.joint hn hp rfl fun inner rest b₁ hinner hrest => joint_build ?_
    exact hinner.imp₂ hrest fun w hi hw => Plan.meaningful_append.2 ⟨Plan.meaningful_given.2 hi, hw⟩
  | take input count =>
    refine (Plan.asks_take count).joint hn hp rfl fun x tail b₁ hx hrest => joint_build ?_
    refine hx.imp₂ hrest fun w hx hw => Plan.meaningful_cons.2 ⟨hx, ?_⟩
    obtain ⟨T, hT⟩ := (Plan.asks_take count).input hw
    exact ⟨_, T, hT, rfl⟩
  | takeWhile input p => exact joint_unfold_takeWhile hn hp
  | skip input count =>
    refine (joint_build (hp.imp fun _ => (Plan.asks_skip count).input)).bind fun s b' _ hs => ?_
    exact joint_advance hn count hs
  | scan input state step =>
    refine (Plan.asks_scan state step).joint hn hp rfl fun x tail b₁ hx hrest => ?_
    refine (joint_call step (state, x)).last fun y b₂ hb₂ hy => joint_build fun w hw => ?_
    obtain rfl := hy w hw
    exact Plan.meaningful_scanned (hrest.grown hb₂ w hw) (hx.grown hb₂ w hw)
  | stateScan input state step =>
    refine (Plan.asks_stateScan state step).joint hn hp rfl fun x tail b₁ hx hrest => ?_
    refine (joint_call step (state, x)).last fun y b₂ hb₂ hy => joint_build fun w hw => ?_
    obtain rfl := hy w hw
    exact Plan.meaningful_stateScanned (hrest.grown hb₂ w hw) (hx.grown hb₂ w hw)

end Unfolding

section Forcing
variable {unfold : {k : Kind ι} → Plan k → Run ι (Sequence k)}
  {moments : {k : Kind ι} → Plan k → Moments ι} {st₀ st : Store ι} {id : Nat} {asked : List (Request ι)}

theorem Pairing.abreast_kept {p₀ p : Plan k} {v : Sequence k}
    {R : Sequence k → List (Request ι) → Store ι → Store ι → Prop}
    (hc₀ : st₀.cells[id]? = some ⟨k, p₀, .forced v⟩) (hc : st.cells[id]? = some ⟨k, p, .forced v⟩)
    (h : R v asked st₀ st) :
    J.Abreast R asked st (Run.forceMoments moments k id st₀) (Run.forceMoments moments k id st)
      (Run.force unfold k id st₀) (Run.force unfold k id st) := by
  have hfind₀ := Store.find?_eq_some.2 hc₀
  have hfind := Store.find?_eq_some.2 hc
  simp only [Run.forceMoments, Run.force, hfind₀, hfind]
  exact abreast_ok (.refl st) h

theorem Pairing.abreast_running {p₀ p : Plan k}
    {R : Sequence k → List (Request ι) → Store ι → Store ι → Prop}
    (hc₀ : st₀.cells[id]? = some ⟨k, p₀, .running⟩) (hc : st.cells[id]? = some ⟨k, p, .running⟩)
    (h : J.Allowed .reentered) :
    J.Abreast R asked st (Run.forceMoments moments k id st₀) (Run.forceMoments moments k id st)
      (Run.force unfold k id st₀) (Run.force unfold k id st) := by
  have hfind₀ := Store.find?_eq_some.2 hc₀
  have hfind := Store.find?_eq_some.2 hc
  simp only [Run.forceMoments, Run.force, hfind₀, hfind]
  exact abreast_error h

/-- A cell that waits: it is enough to say how the plans are carried out, and what is left when the
result has been written. -/
theorem Pairing.abreast_force {p₀ p : Plan k} {fuel : Nat} (hk₀ : st₀.keeps = true) (hk : st.keeps = true)
    (hc₀ : st₀.cells[id]? = some ⟨k, p₀, .unforced⟩) (hc : st.cells[id]? = some ⟨k, p, .unforced⟩)
    {R R' : Sequence k → List (Request ι) → Store ι → Store ι → Prop}
    (hseen : J.Seen asked (st₀.setMemo id p₀ .running) (st.setMemo id p .running))
    (hplans : J.Abreast R asked (st.setMemo id p .running)
      (p₀.moments (.visit fuel) (.visit fuel) (st₀.setMemo id p₀ .running))
      (p.moments (.visit fuel) (.visit fuel) (st.setMemo id p .running))
      (p₀.unfold (.visit fuel) (st₀.setMemo id p₀ .running))
      (p.unfold (.visit fuel) (st.setMemo id p .running)))
    (hR : ∀ v asked' st₀' st', R v asked' st₀' st' → st₀'.cells[id]? = some ⟨k, p₀, .running⟩ →
      st'.cells[id]? = some ⟨k, p, .running⟩ →
      R' v asked' (st₀'.setMemo id p₀ (.forced v)) (st'.setMemo id p (.forced v))) :
    J.Abreast R' asked st (Run.forceMomentsAt fuel k id st₀) (Run.forceMomentsAt fuel k id st)
      (Run.forceAt fuel k id st₀) (Run.forceAt fuel k id st) := by
  -- what a plan asks for touches no cell that is being computed
  have hkeeps : ∀ {p : Plan k} {st st' : Store ι} {v}, st.keeps = true →
      st.cells[id]? = some ⟨k, p, .unforced⟩ →
      p.unfold (.visit fuel) (st.setMemo id p .running) = .ok (v, st') →
      st'.cells[id]? = some ⟨k, p, .running⟩ :=
    fun {p st st' v} hk hc h => p.settling_unfold (fun _ s => Sequence.settling_visit fuel s []) h
      (Store.getElem?_setMemo_self hk hc p .running) Memo.running_ne
  have hrun : ∀ {v st'}, p.unfold (.visit fuel) (st.setMemo id p .running) = .ok (v, st') →
      st'.cells[id]? = some ⟨k, p, .running⟩ := hkeeps hk hc
  have hrun₀ : ∀ {v st'}, p₀.unfold (.visit fuel) (st₀.setMemo id p₀ .running) = .ok (v, st') →
      st'.cells[id]? = some ⟨k, p₀, .running⟩ := hkeeps hk₀ hc₀
  obtain ⟨hmoments, hadvances, hends⟩ := hplans.enter hseen (Store.advances_mark hc)
  clear hplans
  have hfind₀ := Store.find?_eq_some.2 hc₀
  have hfind := Store.find?_eq_some.2 hc
  simp only [Run.forceMoments, Run.force, hfind₀, hfind]
  generalize p₀.unfold (.visit fuel) (st₀.setMemo id p₀ .running) = r₀ at *
  generalize p.unfold (.visit fuel) (st.setMemo id p .running) = r at *
  cases hends with
  | error h => exact ⟨hmoments, by simpa [last] using hadvances, .error h⟩
  | @ok v st₀' st' h =>
    have hcell := hrun rfl
    refine ⟨hmoments, ?_, .ok (hR v _ st₀' st' h (hrun₀ rfl) hcell)⟩
    refine pairwise_splice hadvances ?_
    simpa [last] using Store.advances_finish hcell v

end Forcing

section Extracting
open Pairing

def Turn.Formed (t : Turn k) (w : World ι) : Prop :=
  match t with
  | .found answer => Sequence.Extracted answer w
  | .onward current opened => Sequence.Formed w current ∧ Sequence.Queued w opened

theorem Turn.Tells.formed {w : World ι} {d : Trail (Value k)} {t : Turn k} (h : t.Tells w d) :
    t.Formed w := by
  cases t with
  | found answer => exact h.2
  | onward current opened => exact h.2

theorem abreast_turn {force : Nat → Run ι (Sequence k)} {seen : Nat → Moments ι} {asked : List (Request ι)}
    {st₀ st : Store ι} {current : Sequence k} {opened : List (Segments (Sequence k))}
    (hforce : ∀ id, J.Suffice b (Formed · (.lazy id : Sequence k)) → current = .lazy id →
      J.Abreast (J.After b fun v w => Formed w v) asked st (seen id st₀) (seen id st) (force id st₀)
        (force id st))
    (hc : J.Suffice b (Formed · current)) (ho : J.Suffice b (Sequence.Queued · opened))
    (h : J.Related b asked st₀ st) :
    J.Abreast (J.After b Turn.Formed) asked st (Sequence.turnMoments seen current st₀)
      (Sequence.turnMoments seen current st) (Sequence.turn force current opened st₀)
      (Sequence.turn force current opened st) := by
  cases current with
  | empty => exact joint_pure (ho.imp fun w ho => (Turn.tells_ofPending ho).formed) h
  | one head tail =>
    refine joint_pure (hc.imp₂ ho fun w hc ho => ?_) h
    cases hc with
    | one hx htail => exact (tells_reattach hx htail ho).2
  | composite parts =>
    refine joint_pure (hc.imp₂ ho fun w hc ho => ?_) h
    exact (Turn.tells_ofPending (queued_composite hc ho)).formed
  | generated index limit source =>
    obtain ⟨w₁, hw₁⟩ := J.exists_covered b
    obtain ⟨x, hx⟩ : ∃ x, source.at? index = some x := by
      cases hc w₁ hw₁ with
      | generated hb hs => exact (hs index hb).imp fun _ => And.left
    have hturn : Sequence.turn force (.generated index limit source) opened = (do
        Run.write (source.note index)
        return .found (some (x, Node.reattach (Node.following index limit source) opened))) := by
      simp only [Sequence.turn, hx]
    rw [hturn]
    refine (joint_write _).last (fun _ b' hb _ => joint_pure ((hc.imp₂ ho fun w hc ho => ?_).grown hb)) h
    have hrest := Node.Formed.following hc
    cases hc with
    | generated hb hs =>
      obtain ⟨y, hy, hyf⟩ := hs index hb
      obtain rfl := Option.some.inj (hx.symm.trans hy)
      exact (tells_reattach hyf hrest ho).2
  | lazy id =>
    refine (hforce id hc rfl).last ?_
    rintro v st₀' st' - - ⟨b', hb, h', hv⟩
    refine abreast_ok (.refl st') ⟨b', hb, h', ?_⟩
    exact hv.imp₂ (ho.grown hb) fun w hv ho => ⟨hv, ho⟩

/-- What a pairing has to say of a cell that a request has reached, given that all it asks for goes side by
side. -/
def Pairing.Forces (J : Pairing ι) : Prop :=
  ∀ fuel, (∀ f ≤ fuel, J.Extracts (.visit f) (.visit f)) →
    ∀ ⦃b k⦄ id, J.Suffice b (Formed · (.lazy id : Sequence k)) →
      ∀ ⦃asked st₀ st opened⦄, J.Related b asked st₀ st → st.Reached asked (.lazy id : Sequence k) opened →
        J.Abreast (J.After b fun v w => Formed w v) asked st (Run.forceMomentsAt fuel k id st₀)
          (Run.forceMomentsAt fuel k id st) (Run.forceAt fuel k id st₀) (Run.forceAt fuel k id st)

theorem abreast_visit (hJ : J.Forces) (fuel : Nat) {k : Kind ι} {current : Sequence k}
    {opened : List (Segments (Sequence k))} {b : J.Index} (hc : J.Suffice b (Formed · current))
    (ho : J.Suffice b (Sequence.Queued · opened)) {asked : List (Request ι)} {st₀ st : Store ι}
    (h : J.Related b asked st₀ st) (hr : st.Reached asked current opened) :
    J.Abreast (J.After b Sequence.Extracted) asked st (Sequence.moments fuel current opened st₀)
      (Sequence.moments fuel current opened st) (Sequence.visit fuel current opened st₀)
      (Sequence.visit fuel current opened st) := by
  -- a plan that is carried out asks its input with less fuel
  induction fuel using Nat.strong_induction_on generalizing k current opened b asked st₀ st with
  | h fuel ih =>
    cases fuel with
    | zero => exact (Pairing.abreast_error J.outOfFuel).enter (J.seen h) (.refl st)
    | succ fuel =>
      have hn : ∀ f ≤ fuel, J.Extracts (.visit f) (.visit f) :=
        fun f hf _ _ s hs asked _ st h => (ih f (Nat.lt_succ_of_le hf) hs (fun w _ => Sequence.queued_nil w)
          (J.request _ h) (st.reached_request asked s)).request
      have hforce : ∀ id, J.Suffice b (Formed · (.lazy id : Sequence k)) → current = .lazy id →
          J.Abreast (J.After b fun v w => Formed w v) asked st (Run.forceMomentsAt fuel k id st₀)
            (Run.forceMomentsAt fuel k id st) (Run.forceAt fuel k id st₀) (Run.forceAt fuel k id st) := by
        rintro id hs rfl
        exact hJ fuel hn id hs h hr
      refine Abreast.enter ((abreast_turn hforce hc ho h).bind ?_) (J.seen h) (.refl st)
      rintro turn st₀' st' hturn hst ⟨b', hb, h', ht⟩
      cases turn with
      | found answer => exact abreast_ok (.refl st') ⟨b', hb, h', ht⟩
      | onward current' opened' =>
        have hr' := hr.onward hturn (J.keeps h) hst
        exact (ih fuel (Nat.lt_succ_self fuel) (ht.imp fun w ht => ht.1) (ht.imp fun w ht => ht.2) h'
          (hr'.more _)).imp fun _ _ _ _ h => h.of_grown hb

theorem joint_next (hJ : J.Forces) (fuel : Nat) {s : Sequence k} (hs : J.Suffice b (Formed · s)) :
    J.Joint b (Sequence.next fuel s) (Sequence.nextMoments fuel s) Sequence.Extracted :=
  fun asked _ st h => (abreast_visit hJ fuel hs (fun w _ => Sequence.queued_nil w) (J.request _ h)
    (st.reached_request asked s)).request

theorem joint_traverse (hJ : J.Forces) {σ : Type} {step : σ → El k → Run ι (ForInStep σ)}
    (hstep : ∀ b state x, J.Joint b (step state x) .none fun _ _ => True) (fuel : Nat) {state : σ}
    {s : Sequence k} (hs : J.Suffice b (Formed · s)) :
    J.Joint b (Sequence.traverse step fuel state s) (Sequence.traverseMoments step fuel state s)
      fun _ _ => True := by
  induction fuel generalizing state s b with
  | zero => exact joint_halt J.outOfFuel
  | succ fuel ih =>
    refine (joint_next hJ fuel hs).bind fun answer b₁ _ hx => ?_
    rcases answer with _ | ⟨x, tail⟩
    · exact joint_pure fun _ _ => trivial
    · refine (hstep b₁ state x).bind fun decision b₂ hb₂ _ => ?_
      cases decision with
      | done state => exact joint_pure fun _ _ => trivial
      | yield state => exact ih ((hx.imp fun w hx => (hx _ rfl).2).grown hb₂)

end Extracting

section Programs
open Pairing

def Env.Meaningful (env : Env ι) (w : World ι) : Prop := ∃ vs, Reading.env w env vs

theorem Env.Meaningful.seq {env : Env ι} {w : World ι} (h : env.Meaningful w) (k : Kind ι) (i : Nat) :
    Formed w (env.seq k i) := by
  obtain ⟨vs, hvs⟩ := h
  exact (seq_reads hvs k i).1

theorem Env.Meaningful.extend {env more : Env ι} {w : World ι} (h : env.Meaningful w)
    (hm : more.Meaningful w) : Env.Meaningful (env ++ more) w := by
  obtain ⟨vs, hvs⟩ := h
  obtain ⟨us, hus⟩ := hm
  exact ⟨vs ++ us, List.rel_append hvs hus⟩

theorem Env.meaningful_sequence {w : World ι} {s : Sequence k} (h : Formed w s) :
    Env.Meaningful [⟨.seq k, s⟩] w := ⟨_, .cons (sequence_reads ⟨h, rfl⟩) .nil⟩

theorem Env.meaningful_extracted {w : World ι} {answer : Option (El k × Sequence k)}
    (h : Sequence.Extracted answer w) : (Env.extracted k answer).Meaningful w :=
  ⟨_, .cons (head_reads ⟨rfl, h⟩) (.cons (tail_reads ⟨rfl, h⟩) .nil)⟩

theorem Make.meaningful (m : Make k) {env : Env ι} {w : World ι} (h : env.Meaningful w)
    (sources : List Nat) : (m.plan (Env.pick Env.missing env sources)).Meaningful w := by
  obtain ⟨g, hg⟩ := m.plan_reads
  obtain ⟨vs, hvs⟩ := h
  exact ⟨_, hg w w List.prefix_rfl _ _ (pick_reads hvs sources)⟩

theorem joint_test {σ : Type} (p : Fn (El k) Bool) (x : El k) (d e : ForInStep σ) :
    J.Joint b (do if ← Run.call p x then return d else return e) .none fun _ _ => True := by
  refine (joint_call p x).last fun holds _ _ _ => ?_
  cases holds <;> exact joint_pure fun _ _ => trivial

theorem joint_collectBounded (limit : Nat) (b : J.Index) (seen : Except Refusal (Array (El k)))
    (x : El k) : J.Joint b (collectBounded limit seen x) .none fun _ _ => True := by
  cases seen with
  | error refusal => exact joint_pure fun _ _ => trivial
  | ok seen =>
    simp only [collectBounded]
    split <;> exact joint_pure fun _ _ => trivial

theorem Observation.joint (hJ : J.Forces) {α : Type} (o : Observation k α) (env : Env ι) (fuel : Nat)
    {s : Sequence k} (hs : J.Suffice b (Formed · s)) :
    J.Joint b (o.run env fuel s) (o.moments env fuel s) fun _ _ => True := by
  have hpure : ∀ {β : Type} {b : J.Index} (x : β), J.Joint b (pure x) .none fun _ _ => True :=
    fun x => joint_pure fun _ _ => trivial
  cases o with
  | next => exact (joint_next hJ fuel hs).last fun _ _ _ _ => hpure _
  | first =>
    refine Joint.last (P := fun _ _ => True) ?_ fun _ _ _ _ => hpure _
    exact (joint_next hJ fuel hs).last fun _ _ _ _ => hpure _
  | fold f start =>
    refine (joint_traverse hJ (fun b t x => ?_) fuel hs).last fun _ _ _ _ => hpure _
    exact (joint_call _ _).last fun _ _ _ _ => hpure _
  | find p =>
    exact (joint_traverse hJ (fun b t x => joint_test _ x _ _) fuel hs).last fun _ _ _ _ => hpure _
  | every p => exact joint_traverse hJ (fun b t x => joint_test _ x _ _) fuel hs
  | some p => exact joint_traverse hJ (fun b t x => joint_test _ x _ _) fuel hs
  | toVec =>
    refine Joint.last (P := fun _ _ => True) ?_ fun _ _ _ _ => hpure _
    exact (joint_traverse hJ (fun b t x => hpure _) fuel hs).last fun _ _ _ _ => hpure _
  | toVecBounded limit =>
    refine Joint.last (P := fun _ _ => True) ?_ fun _ _ _ _ => hpure _
    exact (joint_traverse hJ (joint_collectBounded limit) fuel hs).last fun _ _ _ _ => hpure _
  | isEmpty => exact hpure _
  | debug => exact hpure _

theorem Step.joint (hJ : J.Forces) (step : Step ι) (fuel : Nat) {env : Env ι}
    (henv : J.Suffice b env.Meaningful) :
    J.Joint b (step.perform fuel env) (step.moments fuel env) Env.Meaningful := by
  cases step with
  | make m sources =>
    refine (joint_build (henv.imp fun w hw => m.meaningful hw sources)).last fun s b' hb hs => ?_
    exact joint_pure ((henv.grown hb).imp₂ hs fun w hw hs => hw.extend (Env.meaningful_sequence hs))
  | next k source =>
    refine (joint_next hJ fuel (henv.imp fun w hw => hw.seq k source)).last fun answer b' hb hx => ?_
    exact joint_pure ((henv.grown hb).imp₂ hx fun w hw hx => hw.extend (Env.meaningful_extracted hx))
  | @observe k α o source sources =>
    refine (o.joint hJ _ fuel (henv.imp fun w hw => hw.seq k source)).last fun _ b' hb _ => ?_
    exact joint_pure (henv.grown hb)

theorem Program.joint (hJ : J.Forces) (program : List (Step ι)) (fuel : Nat) {env : Env ι}
    (henv : J.Suffice b env.Meaningful) :
    J.Joint b (Program.run fuel program env) (Program.moments fuel program env) Env.Meaningful := by
  induction program generalizing env b with
  | nil => exact (joint_pure henv).enter
  | cons step rest ih => exact ((step.joint hJ fuel henv).bind fun env' b' _ h => ih h).enter

end Programs

end MemoSequence
