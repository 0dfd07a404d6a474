import MemoSequence.Proofs.Lines
set_option autoImplicit false

namespace MemoSequence
open Sequence (Formed)

variable {ι : Type} [Basis ι] {a k κ : Kind ι} {σ : Type}

/-- What a call puts in front of the rest: an element, or a sequence that is made there. -/
inductive Front : Kind ι → Type 1
  | element {κ : Kind ι} (x : El κ) : Front κ
  | made {k : Kind ι} (p : Plan k) : Front k.seq

namespace Front

def build : {κ : Kind ι} → Front κ → Store ι → El κ × Store ι
  | _, .element x, st => (x, st)
  | _, .made p, st => p.build st

def Meaningful : {κ : Kind ι} → Front κ → World ι → Prop
  | κ, .element x, w => El.Formed w κ x
  | _, .made p, w => p.Meaningful w

def Gives (front : Front κ) (y : El κ) : Prop := ∃ st, (front.build st).1 = y

end Front

theorem Pairing.built_front {J : Pairing ι} {b : J.Index} {asked : List (Request ι)} {st₀ st : Store ι}
    (front : Front κ) (h : J.Related b asked st₀ st) (hp : J.Suffice b front.Meaningful) :
    (front.build st₀).1 = (front.build st).1 ∧ st.Advances (front.build st).2 ∧
      J.After b (fun y w => El.Formed w κ y) (front.build st).1 asked (front.build st₀).2
        (front.build st).2 := by
  cases front with
  | element x => exact ⟨rfl, .refl st, b, J.refl b, h, hp⟩
  | made p => exact built p h hp

/-- The plan for what is left of the input, by the notes of the function and the state, and what a call
puts in front of the rest, with the next state. -/
structure Work (a κ : Kind ι) (σ : Type) where
  plan : (σ × El a → Option Note) → Sequence a → σ → Plan κ
  head : σ × El a → Option (Front κ × σ)

def Work.resume (W : Work a κ σ) (note : σ × El a → Option Note) (s : σ) :
    Option (El a × Sequence a) → Run ι (Sequence κ)
  | none => return .empty
  | some (x, tail) => do
    Run.write (note (s, x))
    match W.head (s, x) with
    | some (front, s') => do
      let y ← Run.change front.build
      Run.build (.cons y (W.plan note tail s'))
    | none => return .empty

/-- The plan becomes one cell, and carrying it out makes one call of what the input answers. -/
structure Worker (a κ : Kind ι) (σ : Type) extends Work a κ σ where
  build : ∀ note t s st, (plan note t s).build st = st.alloc (plan note t s)
  unfold : ∀ note t s next, (plan note t s).unfold next = next a t >>= toWork.resume note s
  moments : ∀ note t s next seen, (plan note t s).moments next seen = seen a t
  input : ∀ {note t s w}, (plan note t s).Meaningful w → Formed w t
  result : ∀ {note t s w x tail front s'}, (plan note t s).Meaningful w → El.Formed w a x →
    Formed w tail → head (s, x) = some (front, s') → front.Meaningful w ∧ (plan note tail s').Meaningful w

theorem Worker.build_cons (W : Worker a κ σ) (y : El κ) (note : σ × El a → Option Note)
    (t : Sequence a) (s : σ) (st : Store ι) :
    Run.build (.cons y (W.plan note t s)) st =
      .ok (.one y (.lazy st.cells.size), (st.alloc (W.plan note t s)).2) := by
  simp only [Run.build, Run.change, Plan.build, W.build]
  rfl

def Node.front? {α : Type} : Node α → Option (α × Node α)
  | .one head tail => some (head, tail)
  | _ => none

namespace Line
variable {L : Line a k σ} {W : Worker a κ σ} {O : El κ → List (El k) → Prop} {b : Index a k σ} {q : ℚ}
  {s : σ} {t : Sequence a} {asked : List (Request ι)} {st₀ st : Store ι}

/-- The calls of the worker are calls along the line; `O` says what an element in front contributes. -/
structure Employs (L : Line a k σ) (W : Worker a κ σ) (O : El κ → List (El k) → Prop) : Prop where
  more : ∀ {s x front s'}, W.head (s, x) = some (front, s') → ∀ {y}, front.Gives y →
    ∃ ys, O y ys ∧ L.step (s, x) ys (some s')
  last : ∀ {s x}, W.head (s, x) = none → L.step (s, x) [] none

/-- A cell that waits with a plan of the worker, without notes in the first store. -/
def entry (L : Line a k σ) (W : Worker a κ σ) (c : Nat) (t : Sequence a) (s : σ) :
    Nat × Cell ι × Cell ι :=
  (c, ⟨κ, W.plan (fun _ => none) t s, .unforced⟩, ⟨κ, W.plan L.note t s, .unforced⟩)

/-- What is left when a cell of the worker has been unfolded: nothing, or an element before the next cell
of the worker. -/
inductive Worked (L : Line a k σ) (W : Worker a κ σ) (O : El κ → List (El k) → Prop) (b : Index a k σ) (q : ℚ)
    (s : σ) : Sequence κ → List (Request ι) → Store ι → Store ι → Prop
  | ended {r : Ranks ι} {calls : List (Call σ (El a) (El k))} {asked : List (Request ι)} {st₀ st : Store ι}
      (hr : b.ranks <+: r) (h : L.Twins ⟨r, calls, []⟩ asked st₀ st) : Worked L W O b q s .empty asked st₀ st
  | went {r : Ranks ι} {c : Nat} {x : El a} {tail : Sequence a} {y : El κ} {ys : List (El k)} {s' : σ}
      {asked : List (Request ι)} {st₀ st : Store ι} (hr : b.ranks <+: r) (hys : O y ys)
      (hstep : L.step (s, x) ys (some s'))
      (h : L.Twins ⟨r, b.calls ++ [⟨s, x, ys⟩], [L.entry W c tail s']⟩ asked st₀ st)
      (hc : r[c]? = some (κ, q))
      (hinput : st.Comes L.input (b.calls.map Call.element ++ [x]) tail [])
      (hplan : ∀ note, r.Suffice 0 (W.plan note tail s').Meaningful)
      (hy : r.Suffice 0 (El.Formed · κ y)) : Worked L W O b q s (.one y (.lazy c)) asked st₀ st

theorem Worked.twins {v : Sequence κ} (h : L.Worked W O b q s v asked st₀ st) :
    ∃ b', L.Twins b' asked st₀ st := by
  cases h with
  | ended _ h => exact ⟨_, h⟩
  | went _ _ _ h => exact ⟨_, h⟩

theorem Worked.setMemo {v : Sequence κ} (h : L.Worked W O b q s v asked st₀ st) {c : Nat} {p₀ p : Plan κ}
    (hc : b.ranks[c]? = some (κ, q)) (hrun : st.cells[c]? = some ⟨κ, p, .running⟩) :
    L.Worked W O b q s v asked (st₀.setMemo c p₀ (.forced v)) (st.setMemo c p (.forced v)) := by
  cases h with
  | ended hr h =>
    exact .ended hr (h.finish (Ranks.getElem?_of_grown hr hc) hrun p₀ fun _ _ _ => Node.Formed.empty)
  | went hr hys hstep h hnew hinput hplan hy =>
    have htwins := h.finish (Ranks.getElem?_of_grown hr hc) hrun p₀ fun hq =>
      hy.imp₂ (fun w hw => Node.Formed.lazy (hw hnew hq)) fun _ => Node.Formed.one
    exact .went hr hys hstep htwins hnew (hinput.advances (Store.advances_finish hrun _)) hplan hy

/-- The state and the input of the next call; `rest` comes after what the calls have contributed. -/
structure Ready (L : Line a k σ) (W : Worker a κ σ) (b : Index a k σ) (st : Store ι) (rest : Sequence k)
    (t : Sequence a) (s : σ) : Prop where
  state : Follows L.step L.start b.calls (some s)
  input : st.Comes L.input (b.calls.map Call.element) t []
  output : ∃ opened, Node.pendingParts opened = [] ∧ st.Comes L.handle (contributed b.calls) rest opened
  plan : ∀ note, b.ranks.Suffice 0 (W.plan note t s).Meaningful

section Ready
variable {rest rest' : Sequence k} {r : Ranks ι} {s' : σ} {tail : Sequence a} {st' : Store ι}

theorem Ready.advances (h : L.Ready W b st rest t s) (hst : st.Advances st') (hr : b.ranks <+: r)
    {waiting : List (Nat × Cell ι × Cell ι)} : L.Ready W ⟨r, b.calls, waiting⟩ st' rest t s where
  state := h.state
  input := h.input.advances hst
  output := by
    obtain ⟨opened, ho, hc⟩ := h.output
    exact ⟨opened, ho, hc.advances hst⟩
  plan note := (h.plan note).grown hr

theorem Ready.call (h : L.Ready W b st rest t s) (hst : st.Advances st') {x : El a} {ys : List (El k)}
    (hstep : L.step (s, x) ys (some s'))
    (hinput : st'.Comes L.input (b.calls.map Call.element ++ [x]) tail [])
    (hplan : ∀ note, r.Suffice 0 (W.plan note tail s').Meaningful)
    (hrest : ∀ seen opened, st'.Comes L.handle seen rest opened → Node.pendingParts opened = [] →
      ∃ opened', Node.pendingParts opened' = [] ∧ st'.Comes L.handle (seen ++ ys) rest' opened')
    (waiting : List (Nat × Cell ι × Cell ι)) :
    L.Ready W ⟨r, b.calls ++ [⟨s, x, ys⟩], waiting⟩ st' rest' tail s' where
  state := h.state.call hstep
  input := by simpa using hinput
  output := by
    obtain ⟨opened, ho, hc⟩ := h.output
    rw [contributed_append]
    exact hrest _ opened (hc.advances hst) ho
  plan := hplan

/-- A request that reaches the next cell is one for more than the calls have contributed. -/
theorem Ready.asked_of_reached {c : Nat} {opened : List (Segments (Sequence k))}
    (h : L.Ready W b st (.lazy c) t s) (hr : st.Reached asked (.lazy c : Sequence k) opened) :
    st.Asked asked L.handle (contributed b.calls) := by
  obtain ⟨opened', -, hcomes⟩ := h.output
  exact ⟨c, opened', opened, hcomes, hr⟩

end Ready

section Forcing
variable {R : L.Resting} {fuel : Nat}

theorem abreast_call {r : Ranks ι} {x : El a} {tail : Sequence a} {front : Front κ} {s' : σ}
    (hL : L.Employs W O) (hr : b.ranks <+: r) (h : L.Twins ⟨r, b.calls, []⟩ asked st₀ st)
    (hhead : W.head (s, x) = some (front, s')) (hs : Follows L.step L.start b.calls (some s))
    (hinput : ∀ st', st.Advances st' → st'.Comes L.input (b.calls.map Call.element ++ [x]) tail [])
    (hasked : st.Asked asked L.handle (contributed b.calls)) (hfront : r.Suffice 0 front.Meaningful)
    (hplan : ∀ note, r.Suffice 0 (W.plan note tail s').Meaningful) :
    (L.pairing R).Abreast (L.Worked W O b q s) asked st [] [] (W.resume (fun _ => none) s (some (x, tail)) st₀)
      (W.resume L.note s (some (x, tail)) st) := by
  have hwrite := st.advances_write (L.note (s, x))
  obtain ⟨ys, hys, hstep⟩ := hL.more hhead ⟨st.write (L.note (s, x)), rfl⟩
  have hcalled := (h.called.advances hwrite).call hs hstep (hinput _ hwrite) (hasked.advances hwrite)
  obtain ⟨hy, hbuild, ⟨r', calls, waiting⟩, hb, ⟨h', -⟩, hformed⟩ :=
    Pairing.built_front (J := L.pairing R) (b := ⟨r, b.calls ++ [⟨s, x, ys⟩], []⟩) front
      ⟨h.call hcalled, R.closed rfl⟩ hfront
  obtain ⟨rfl, rfl⟩ : waiting = [] ∧ calls = b.calls ++ [⟨s, x, ys⟩] := hb.closed rfl
  have hr' : r <+: r' := hb.ranks
  have hnew : (r' ++ [(κ, q)])[r'.length]? = some (κ, q) := List.getElem?_concat_length
  have hgrown : r' <+: r' ++ [(κ, q)] := List.prefix_append _ _
  have halloc := Store.advances_alloc (front.build (st.write (L.note (s, x)))).2 (W.plan L.note tail s')
  have hresume : ∀ note st, W.resume note s (some (x, tail)) st =
      .ok (.one (front.build (st.write (note (s, x)))).1
        (.lazy (front.build (st.write (note (s, x)))).2.cells.size),
        ((front.build (st.write (note (s, x)))).2.alloc (W.plan note tail s')).2) := by
    intro note st
    simp only [Work.resume, hhead, Run.write_bind]
    exact W.build_cons _ _ _ _ _
  have hresume₀ : W.resume (fun _ => none) s (some (x, tail)) st₀ =
      .ok (.one (front.build st₀).1 (.lazy (front.build st₀).2.cells.size),
        ((front.build st₀).2.alloc (W.plan (fun _ => none) tail s')).2) := hresume _ _
  rw [hresume₀, hresume, hy, h'.size₀, h'.size]
  refine Pairing.abreast_ok (hwrite.trans (hbuild.trans halloc)) ?_
  refine .went (hr.trans (hr'.trans hgrown)) hys hstep (h'.alloc (.inr rfl)) hnew
    (hinput _ (hwrite.trans (hbuild.trans halloc))) (fun note => ?_)
    (Ranks.Suffice.grown hformed hgrown)
  exact (hplan note).grown (hr'.trans hgrown)

theorem abreast_resume {b' : Index a k σ} {answer : Option (El a × Sequence a)} (hL : L.Employs W O)
    (hr : b.ranks <+: b'.ranks) (hcalls : b'.calls = b.calls) (hclosed : b'.waiting = [])
    (h : L.Twins b' asked st₀ st) (hx : b'.ranks.Suffice 0 (Sequence.Extracted answer))
    (hs : Follows L.step L.start b.calls (some s))
    (hinput : ∀ x tail, answer = some (x, tail) → ∀ st', st.Advances st' →
      st'.Comes L.input (b.calls.map Call.element ++ [x]) tail [])
    (hasked : st.Asked asked L.handle (contributed b.calls))
    (hplan : ∀ note, b.ranks.Suffice 0 (W.plan note t s).Meaningful) :
    (L.pairing R).Abreast (L.Worked W O b q s) asked st [] [] (W.resume (fun _ => none) s answer st₀)
      (W.resume L.note s answer st) := by
  obtain ⟨r, calls, waiting⟩ := b'
  obtain rfl : calls = b.calls := hcalls
  obtain rfl : waiting = [] := hclosed
  rcases answer with _ | ⟨x, tail⟩
  · exact Pairing.abreast_ok (.refl st) (.ended hr h)
  cases hhead : W.head (s, x) with
  | none =>
    have hwrite := st.advances_write (L.note (s, x))
    have hcalled := (h.called.advances hwrite).call hs (hL.last hhead) (hinput x tail rfl _ hwrite)
      (hasked.advances hwrite)
    simp only [Work.resume, hhead]
    exact Pairing.abreast_ok hwrite (.ended hr (h.call hcalled))
  | some p =>
    obtain ⟨front, s'⟩ := p
    have hresult : ∀ note, r.Suffice 0 fun w => front.Meaningful w ∧ (W.plan note tail s').Meaningful w :=
      fun note => ((hplan note).grown hr).imp₂ hx fun w hw hx =>
        W.result hw (hx _ rfl).1 (hx _ rfl).2 hhead
    exact abreast_call hL hr h hhead hs (hinput x tail rfl) hasked
      ((hresult L.note).imp fun _ => And.left) fun note => (hresult note).imp fun _ => And.right

/-- Forcing the cell of the worker that waits. -/
theorem abreast_force_worker {c : Nat} {rest : Sequence k} (hL : L.Employs W O)
    (hn : (L.pairing R).Extracts (.visit fuel) (.visit fuel)) (h : L.Twins b asked st₀ st)
    (hw : b.waiting = [L.entry W c t s]) (hc : b.ranks[c]? = some (κ, q))
    (hready : L.Ready W b st rest t s) (hasked : st.Asked asked L.handle (contributed b.calls)) :
    (L.pairing R).Abreast
      (fun v asked st₀ st => L.Worked W O b q s v asked st₀ st ∧ st.peek? κ c = some v) asked st
      (Run.forceMomentsAt fuel κ c st₀) (Run.forceMomentsAt fuel κ c st) (Run.forceAt fuel κ c st₀)
      (Run.forceAt fuel κ c st) := by
  obtain ⟨hc₀, hc₁, -⟩ := h.waiting (L.entry W c t s) (hw ▸ List.mem_singleton.2 rfl)
  have hc₀ : st₀.cells[c]? = some ⟨κ, W.plan (fun _ => none) t s, .unforced⟩ := hc₀
  have hc₁ : st.cells[c]? = some ⟨κ, W.plan L.note t s, .unforced⟩ := hc₁
  have hmark : st.Advances (st.setMemo c (W.plan L.note t s) .running) := Store.advances_mark hc₁
  have hmarked := h.mark hc hc₁ (W.plan (fun _ => none) t s)
  have hnone : (b.waiting.filter fun e => e.1 ≠ c) = [] := by simp [hw, entry]
  rw [hnone] at hmarked
  have hnext := hn (b := ⟨b.ranks, b.calls, []⟩) ((hready.plan L.note).imp fun _ => W.input)
    ⟨hmarked, R.closed rfl⟩
  refine Pairing.abreast_force (R := L.Worked W O b q s) h.keeps₀ h.keeps hc₀ hc₁ hmarked.noted
    ?_ fun v asked' st₀' st' hworked hrun₀ hrun => ?_
  · rw [W.moments, W.moments, W.unfold, W.unfold]
    refine Pairing.Abreast.last hnext fun answer st₀' st' hanswer hst' hafter => ?_
    obtain ⟨b', hb, ⟨h', -⟩, hx⟩ := hafter
    obtain ⟨hclosed, hcalls⟩ := hb.closed rfl
    refine abreast_resume hL hb.ranks hcalls hclosed h' hx hready.state (fun x tail heq st₁ hst₁ => ?_)
      ((hasked.advances (hmark.trans hst')).more _) hready.plan
    subst heq
    have hmoments := hnext.advances
    simp only [hanswer, Pairing.last, List.cons_append] at hmoments
    exact Store.Comes.visited fuel (hready.input.advances (hmark.trans (hst'.trans hst₁)))
      hmarked.keeps hanswer (List.pairwise_cons.1 hmoments).2 hst₁
  · obtain ⟨b', h'⟩ := hworked.twins
    exact ⟨hworked.setMemo hc hrun, Store.peek?_eq_some.2
      ⟨W.plan L.note t s, Store.getElem?_setMemo_self h'.keeps hrun _ _⟩⟩

theorem abreast_visit_worked {v : Sequence κ} (h : L.Worked W O b q s v asked st₀ st) :
    (L.pairing R).Abreast
      (fun answer asked st₀ st => ∃ v, L.Worked W O b q s v asked st₀ st ∧ v.front? = answer) asked st
      (Sequence.moments fuel v [] st₀) (Sequence.moments fuel v [] st)
      (Sequence.visit fuel v [] st₀) (Sequence.visit fuel v [] st) := by
  obtain ⟨b', h'⟩ := h.twins
  cases fuel with
  | zero => exact (Pairing.abreast_error trivial).enter h'.noted (.refl st)
  | succ fuel =>
    have hdone : (L.pairing R).Abreast
        (fun answer asked st₀ st => ∃ v, L.Worked W O b q s v asked st₀ st ∧ v.front? = answer) asked st
        [] [] (.ok (v.front?, st₀)) (.ok (v.front?, st)) :=
      Pairing.abreast_ok (.refl st) ⟨v, h, rfl⟩
    cases h with
    | ended _ _ => exact hdone.enter h'.noted (.refl st)
    | went _ _ _ _ _ _ _ _ => exact hdone.enter h'.noted (.refl st)

/-- The cell of the worker that waits is asked for its first element. -/
theorem abreast_next_worker {c : Nat} {rest : Sequence k} (hL : L.Employs W O)
    (hn : ∀ f ≤ fuel, (L.pairing R).Extracts (.visit f) (.visit f)) (h : L.Twins b asked st₀ st)
    (hw : b.waiting = [L.entry W c t s]) (hc : b.ranks[c]? = some (κ, q))
    (hready : L.Ready W b st rest t s) (hasked : st.Asked asked L.handle (contributed b.calls)) :
    (L.pairing R).Abreast
      (fun answer asked st₀ st => ∃ v, L.Worked W O b q s v asked st₀ st ∧ v.front? = answer) asked st
      (Extraction.Moments.visit fuel κ (.lazy c) st₀) (Extraction.Moments.visit fuel κ (.lazy c) st)
      (Extraction.visit fuel κ (.lazy c) st₀) (Extraction.visit fuel κ (.lazy c) st) := by
  refine Pairing.Abreast.request ?_
  have h' := h.more [⟨κ, .lazy c⟩]
  cases fuel with
  | zero => exact (Pairing.abreast_error trivial).enter h'.noted (.refl st)
  | succ fuel =>
    have hforce := abreast_force_worker hL (hn fuel (Nat.le_succ fuel)) h' hw hc hready (hasked.more _)
    refine Pairing.Abreast.enter ?_ h'.noted (.refl st)
    refine Pairing.Abreast.bind (R := fun turn asked st₀ st => ∃ v, turn = .onward v [] ∧
      L.Worked W O b q s v asked st₀ st) ?_ ?_
    · refine Pairing.Abreast.last hforce fun v st₀' st' _ _ hworked => ?_
      exact Pairing.abreast_ok (.refl _) ⟨v, rfl, hworked.1⟩
    · rintro turn st₀' st' - - ⟨v, rfl, hworked⟩
      exact abreast_visit_worked hworked

end Forcing

end Line

end MemoSequence
