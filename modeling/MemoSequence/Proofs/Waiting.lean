import MemoSequence.Proofs.Workers
set_option autoImplicit false

/-!
# The next call

As long as a line goes on, one of its cells waits, and with it is known how far the calls have come. In
`map`, `takeWhile` and `scan` this cell belongs to the sequence itself; in `filter` and the other scans it
belongs to a sequence of sequences that nobody else knows, and the sequence itself flattens that one. A
producer waits in one cell and is called when this is forced.
-/
namespace MemoSequence
open Sequence (Formed)

variable {ι : Type} [Basis ι] {a k κ : Kind ι} {σ : Type}

def Run.spread : Option (Sequence k × Sequence k.seq) → Run ι (Sequence k)
  | some (inner, rest) => Run.build (.append (.given inner) (.flatten (.given rest)))
  | none => return .empty

abbrev Plan.flattening (k : Kind ι) (c : Nat) : Plan k := .flatten (.given (.lazy c))

theorem Plan.unfold_flattening (c : Nat) (next : Extraction ι) :
    (Plan.flattening k c).unfold next = next k.seq (.lazy c) >>= Run.spread := by
  refine congrArg (next k.seq (.lazy c) >>= ·) (funext fun answer => ?_)
  cases answer <;> rfl

namespace Line
variable {L : Line a k σ} {b : Index a k σ} {s s' : σ} {t tail : Sequence a} {asked : List (Request ι)}
  {st₀ st st' : Store ι}

section Direct

def direct (L : Line a k σ) (W : Worker a k σ) : L.Resting where
  holds b st := b.waiting = [] ∨ ∃ c t s, b.waiting = [L.entry W c t s] ∧
    b.ranks[c]? = some (k, -1) ∧ L.Ready W b st (.lazy c) t s
  closed h := .inl h
  stable := by
    rintro b st st' r (h | ⟨c, t, s, hw, hc, h⟩) hst hr
    · exact .inl h
    · exact .inr ⟨c, t, s, hw, Ranks.getElem?_of_grown hr hc, h.advances hst hr⟩

theorem direct_forces {W : Worker a k σ} (hL : L.Employs W fun y ys => ys = [y]) :
    (L.pairing (L.direct W)).Forces := by
  refine Resting.forces fun fuel hn b kind asked st₀ st id opened h hrest hid hs hr => ?_
  obtain ⟨e, he, rfl⟩ := hid
  rcases hrest with hw | ⟨c, t, s, hw, hc, hready⟩
  · rw [hw] at he
    cases he
  obtain rfl : e = L.entry W c t s := List.mem_singleton.1 (hw ▸ he)
  obtain ⟨x, hx, -⟩ := hs.rank
  obtain ⟨rfl, -⟩ := Prod.mk.inj (Option.some.inj (hx.symm.trans hc))
  refine (abreast_force_worker hL (hn fuel le_rfl) h hw hc hready (hready.asked_of_reached hr)).imp
    fun v st₀' st' hst hworked => ?_
  obtain ⟨hworked, hv⟩ := hworked
  have hopen : b.waiting ≠ [] := hw ▸ List.cons_ne_nil _ _
  cases hworked with
  | ended hr h' =>
    exact ⟨_, Index.grown_of_open hr hopen, ⟨h', .inl rfl⟩, fun _ _ => Node.Formed.empty⟩
  | @went r c' x tail y ys s' _ _ _ hr hys hstep h' hc' hinput hplan hy =>
    subst hys
    refine ⟨_, Index.grown_of_open hr hopen,
      ⟨h', .inr ⟨c', tail, s', rfl, hc', ?_⟩⟩, fun w hw => ?_⟩
    · refine hready.call hst hstep hinput hplan (fun seen opened hcomes ho => ?_) _
      have hcomes' := (hcomes.kept hv).one
      rw [Node.reattach_of_nil ho] at hcomes'
      exact ⟨[], rfl, hcomes'⟩
    · exact Node.Formed.one (hy w hw) (.lazy (hw hc' neg_one_lt_zero))

end Direct

section Hidden
variable {W : Worker a k.seq σ} {fuel : Nat}

def flattening (k : Kind ι) (id c : Nat) : Nat × Cell ι × Cell ι :=
  (id, ⟨k, .flattening k c, .unforced⟩, ⟨k, .flattening k c, .unforced⟩)

/-- The worker makes a sequence of sequences, whose cells may not be spoken of. -/
def hidden (L : Line a k σ) (W : Worker a k.seq σ) : L.Resting where
  holds b st := b.waiting = [] ∨ ∃ id c t s, b.waiting = [flattening k id c, L.entry W c t s] ∧
    b.ranks[id]? = some (k, -1) ∧ b.ranks[c]? = some (k.seq, 1) ∧ L.Ready W b st (.lazy id) t s
  closed h := .inl h
  stable := by
    rintro b st st' r (h | ⟨id, c, t, s, hw, hid, hc, h⟩) hst hr
    · exact .inl h
    · exact .inr ⟨id, c, t, s, hw, Ranks.getElem?_of_grown hr hid, Ranks.getElem?_of_grown hr hc,
        h.advances hst hr⟩

def Flattened (L : Line a k σ) (W : Worker a k.seq σ) (b : Index a k σ) (id : Nat) (v : Sequence k)
    (asked : List (Request ι)) (st₀ st : Store ι) : Prop :=
  ∃ b' : Index a k σ, b.ranks <+: b'.ranks ∧ L.Twins b' asked st₀ st ∧ b'.ranks.Suffice 0 (Formed · v) ∧
    ∀ st', st.Advances st' → st'.peek? k id = some v → (L.hidden W).holds b' st'

theorem abreast_unfold_flatten (hL : L.Employs W Node.Holds)
    (hn : ∀ f ≤ fuel, (L.pairing (L.hidden W)).Extracts (.visit f) (.visit f)) {id c : Nat}
    (h : L.Twins b asked st₀ st) (hw : b.waiting = [L.entry W c t s])
    (hc : b.ranks[c]? = some (k.seq, 1)) (hready : L.Ready W b st (.lazy id) t s)
    (hasked : st.Asked asked L.handle (contributed b.calls)) :
    (L.pairing (L.hidden W)).Abreast (L.Flattened W b id) asked st
      ((Plan.flattening k c).moments (.visit fuel) (.visit fuel) st₀)
      ((Plan.flattening k c).moments (.visit fuel) (.visit fuel) st)
      ((Plan.flattening k c).unfold (.visit fuel) st₀)
      ((Plan.flattening k c).unfold (.visit fuel) st) := by
  rw [Plan.unfold_flattening]
  refine Pairing.Abreast.last (abreast_next_worker hL hn h hw hc hready hasked)
    fun answer st₀' st' _ hst hworked => ?_
  obtain ⟨v, hworked, rfl⟩ := hworked
  cases hworked with
  | ended hr h' =>
    exact Pairing.abreast_ok (.refl _) ⟨_, hr, h', fun _ _ => Node.Formed.empty, fun _ _ _ => .inl rfl⟩
  | @went r c' x tail y ys s' _ _ _ hr hys hstep h' hc' hinput hplan hy =>
    have hgrown : r <+: r ++ [(k, -1)] := List.prefix_append _ _
    have hnew : (r ++ [(k, (-1 : ℚ))])[r.length]? = some (k, -1) := List.getElem?_concat_length
    have hbuild : ∀ {st : Store ι}, st.cells.size = r.length →
        Run.build (.append (.given y) (.flatten (.given (.lazy c')))) st =
          .ok (y.concat (.lazy r.length), (st.alloc (.flattening k c')).2) := by
      intro st hsize
      rw [← hsize]
      rfl
    have halloc : st'.Advances (st'.alloc (.flattening k c')).2 :=
      st'.advances_alloc _
    simp only [Node.front?, Run.spread, hbuild h'.size₀, hbuild h'.size]
    refine Pairing.abreast_ok halloc ⟨_, hr.trans hgrown, h'.alloc (.inr rfl), fun w hw => ?_,
      fun st₁ hst₁ hv => .inr ⟨r.length, c', tail, s', rfl, hnew, Ranks.getElem?_of_grown hgrown hc', ?_⟩⟩
    · exact Node.Formed.concat (hy.grown hgrown w hw) (.lazy (hw hnew neg_one_lt_zero))
    · exact hready.call (hst.trans (halloc.trans hst₁)) hstep (hinput.advances (halloc.trans hst₁))
        (fun note => (hplan note).grown hgrown)
        (fun seen opened hcomes ho => Store.Comes.concat hys (hcomes.kept hv) ho) _

theorem hidden_forces (hL : L.Employs W Node.Holds) : (L.pairing (L.hidden W)).Forces := by
  refine Resting.forces fun fuel hn b kind asked st₀ st id opened h hrest hid hs hr => ?_
  obtain ⟨e, he, rfl⟩ := hid
  obtain ⟨x, hx, hneg⟩ := hs.rank
  rcases hrest with hw | ⟨id, c, t, s, hw, hid, hc, hready⟩
  · rw [hw] at he
    cases he
  have hopen : b.waiting ≠ [] := hw ▸ List.cons_ne_nil _ _
  have hne : c ≠ id := by
    rintro rfl
    have hkind := congrArg Prod.fst (Option.some.inj (hid.symm.trans hc))
    exact k.seq_ne hkind.symm
  rw [hw] at he
  rcases List.mem_cons.1 he with rfl | he
  · obtain ⟨rfl, -⟩ := Prod.mk.inj (Option.some.inj (hx.symm.trans hid))
    obtain ⟨hc₀, hc₁, -⟩ := h.waiting (flattening _ id c) (hw ▸ List.mem_cons_self ..)
    have hc₀ : st₀.cells[id]? = some ⟨_, .flattening _ c, .unforced⟩ := hc₀
    have hc₁ : st.cells[id]? = some ⟨_, .flattening _ c, .unforced⟩ := hc₁
    have hmark := Store.advances_mark hc₁
    have hmarked := h.mark hid hc₁ (.flattening _ c)
    have hleft : (b.waiting.filter fun e => e.1 ≠ id) = [L.entry W c t s] := by
      simp [hw, flattening, entry, hne]
    rw [hleft] at hmarked
    refine Pairing.abreast_force h.keeps₀ h.keeps hc₀ hc₁ hmarked.noted (abreast_unfold_flatten hL hn hmarked
      rfl hc (hready.advances hmark List.prefix_rfl) ((hready.asked_of_reached hr).advances hmark)) ?_
    rintro v _ st₀' st' ⟨b', hr, h', hv, hholds⟩ - hrun
    have htwins := h'.finish (Ranks.getElem?_of_grown hr hid) hrun (.flattening _ c) fun _ => hv
    refine ⟨b', Index.grown_of_open hr hopen,
      ⟨htwins, hholds _ (Store.advances_finish hrun v) ?_⟩, hv⟩
    exact Store.peek?_eq_some.2 ⟨.flattening _ c, Store.getElem?_setMemo_self h'.keeps hrun _ _⟩
  · -- the hidden cell may not be spoken of
    obtain rfl : e = L.entry W c t s := List.mem_singleton.1 he
    obtain ⟨-, rfl⟩ := Prod.mk.inj (Option.some.inj (hx.symm.trans hc))
    exact absurd hneg (by norm_num)

end Hidden

section Produced
variable {x : El a} {body : Unit → Plan k}

/-- The sequence is one deferred part, whose producer is called as if for the only element `x` of the input. -/
def produced (L : Line a k σ) (x : El a) (body : Unit → Plan k) : L.Resting where
  holds b _ := b.waiting = [] ∨ ∃ c, L.handle = .lazy c ∧ b.calls = [] ∧
    b.waiting = [(c, ⟨k, .defer none body, .unforced⟩, ⟨k, .defer (L.note (L.start, x)) body, .unforced⟩)] ∧
    b.ranks[c]? = some (k, -1) ∧ b.ranks.Suffice 0 (body ()).Meaningful
  closed h := .inl h
  stable := by
    rintro b st st' r (h | ⟨c, hhandle, hcalls, hw, hc, hbody⟩) hst hr
    · exact .inl h
    · exact .inr ⟨c, hhandle, hcalls, hw, Ranks.getElem?_of_grown hr hc, hbody.grown hr⟩

theorem abreast_produce {R : L.Resting} {next : Extraction ι} {r : Ranks ι} (hinput : L.input = .single x)
    (hstep : L.step (L.start, x) [] none) (h : L.Twins ⟨r, [], []⟩ asked st₀ st)
    (hasked : st.Asked asked L.handle []) (hbody : r.Suffice 0 (body ()).Meaningful) :
    (L.pairing R).Abreast ((L.pairing R).After ⟨r, [⟨L.start, x, []⟩], []⟩ fun v w => Formed w v) asked st
      [] [] ((Plan.defer none body).unfold next st₀)
      ((Plan.defer (L.note (L.start, x)) body).unfold next st) := by
  have hwrite := st.advances_write (L.note (L.start, x))
  have hcomes : (st.write (L.note (L.start, x))).Comes L.input [x] .empty [] :=
    hinput ▸ Store.Comes.one (.start (s := .single x))
  have hcalled := (h.called.advances hwrite).call .start hstep hcomes (hasked.advances hwrite)
  obtain ⟨hs, hbuild, hafter⟩ := Pairing.built (J := L.pairing R) (body ())
    (b := ⟨r, [⟨L.start, x, []⟩], []⟩) ⟨h.call hcalled, R.closed rfl⟩ hbody
  have hunfold : ∀ note st, (Plan.defer note body).unfold next st =
      .ok (((body ()).build (st.write note)).1, ((body ()).build (st.write note)).2) := fun _ _ => rfl
  have hunfold₀ : (Plan.defer none body).unfold next st₀ =
      .ok (((body ()).build st₀).1, ((body ()).build st₀).2) := rfl
  rw [hunfold₀, hunfold, hs]
  exact Pairing.abreast_ok (hwrite.trans hbuild) hafter

theorem produced_forces (hinput : L.input = .single x) (hstep : L.step (L.start, x) [] none) :
    (L.pairing (L.produced x body)).Forces := by
  refine Resting.forces fun fuel hn b kind asked st₀ st id opened h hrest hid hs hr => ?_
  obtain ⟨e, he, rfl⟩ := hid
  rcases hrest with hw | ⟨c, hhandle, hcalls, hw, hc, hbody⟩
  · rw [hw] at he
    cases he
  have hopen : b.waiting ≠ [] := hw ▸ List.cons_ne_nil _ _
  obtain rfl := List.mem_singleton.1 (hw ▸ he)
  obtain ⟨y, hy, -⟩ := hs.rank
  obtain ⟨rfl, -⟩ := Prod.mk.inj (Option.some.inj (hy.symm.trans hc))
  obtain ⟨hc₀, hc₁, -⟩ := h.waiting _ he
  have hmark := Store.advances_mark hc₁
  have hmarked := h.mark hc hc₁ (.defer none body)
  have hnone : (b.waiting.filter fun e => e.1 ≠ c) = [] := by simp [hw]
  rw [hnone, hcalls] at hmarked
  have hasked : st.Asked asked L.handle [] := ⟨c, [], opened, hhandle ▸ .start, hr⟩
  refine Pairing.abreast_force h.keeps₀ h.keeps hc₀ hc₁ hmarked.noted
    (abreast_produce hinput hstep hmarked (hasked.advances hmark) hbody) ?_
  rintro v _ st₀' st' ⟨⟨r, calls, waiting⟩, hb, ⟨h', -⟩, hv⟩ - hrun
  obtain ⟨rfl, -⟩ := hb.closed rfl
  have htwins := h'.finish (Ranks.getElem?_of_grown hb.ranks hc) hrun (.defer none body) fun _ => hv
  exact ⟨_, Index.grown_of_open hb.ranks hopen, ⟨htwins, .inl rfl⟩, hv⟩

end Produced

end Line

end MemoSequence
