import MemoSequence.Proofs.PairedRuns
set_option autoImplicit false

namespace MemoSequence
open Sequence (Formed)

variable {ι : Type} [Basis ι] {k : Kind ι} {st : Store ι}

/-- Ranks, the rank that a run keeps below, and the cells that are being computed. -/
structure Depth (ι : Type) [Basis ι] where
  ranks : Ranks ι
  bound : ℚ
  running : Nat → Prop

namespace Depth
variable {d d' : Depth ι}

structure Grown (d d' : Depth ι) : Prop where
  ranks : d.ranks <+: d'.ranks
  bound : d'.bound = d.bound
  running : d'.running = d.running

/-- The cells that are being computed do not lie below the bound. -/
structure Fits (d : Depth ι) (st : Store ι) : Prop where
  keeps : st.keeps = true
  ranked : st.Ranked d.ranks
  running : ∀ id, st.Running id ↔ d.running id
  above : ∀ id, d.running id → ∃ c, d.ranks[id]? = some c ∧ d.bound ≤ c.2

def empty (ι : Type) [Basis ι] : Depth ι := ⟨[], 0, fun _ => False⟩

def enter (d : Depth ι) (id : Nat) (x : ℚ) : Depth ι := ⟨d.ranks, x, fun j => id = j ∨ d.running j⟩

theorem Fits.write (h : d.Fits st) (note : Option Note) : d.Fits (st.write note) where
  keeps := by rw [Store.keeps_write, h.keeps]
  ranked := h.ranked.of_cells (st.cells_write note)
  running id := (Store.running_of_cells (st.cells_write note) id).trans (h.running id)
  above := h.above

theorem Fits.alloc (h : d.Fits st) {p : Plan k} (hp : d.ranks.Suffice d.bound p.Meaningful) :
    ∃ d', d.Grown d' ∧ d'.Fits (st.alloc p).2 ∧
      d'.ranks.Suffice d'.bound (Formed · (st.alloc p).1) := by
  obtain ⟨r, hr, hst, hs⟩ := h.ranked.alloc hp
  refine ⟨⟨r, d.bound, d.running⟩, ⟨hr, rfl, rfl⟩, ⟨h.keeps, hst, fun id => ?_, fun id hid => ?_⟩, hs⟩
  · exact (Store.running_alloc p id).trans (h.running id)
  · obtain ⟨c, hc, hle⟩ := h.above id hid
    exact ⟨c, Ranks.getElem?_of_grown hr hc, hle⟩

theorem fits_empty : (empty ι).Fits Store.empty where
  keeps := rfl
  ranked := Store.ranked_empty true #[]
  running id := ⟨Store.not_running_empty true #[] id, False.elim⟩
  above _ h := h.elim

variable {id : Nat} {x : ℚ} {p : Plan k}

theorem Fits.mark (h : d.Fits st) (hid : d.ranks[id]? = some (k, x)) (hx : x < d.bound)
    (hc : st.cells[id]? = some ⟨k, p, .unforced⟩) (hp : d.ranks.Suffice x p.Meaningful) :
    (d.enter id x).Fits (st.setMemo id p .running) where
  keeps := by rw [Store.keeps_setMemo, h.keeps]
  ranked := h.ranked.setMemo hid hp fun v hv => by cases hv
  running j := by
    rw [Store.running_setMemo (Array.getElem?_eq_some_iff.1 hc).1, h.running]
    by_cases hj : id = j <;> simp [enter, h.keeps, hj]
  above j hj := by
    rcases hj with rfl | hj
    · exact ⟨(k, x), hid, le_rfl⟩
    · obtain ⟨c, hc, hle⟩ := h.above j hj
      exact ⟨c, hc, hx.le.trans hle⟩

/-- The result has been computed below the rank of the cell. -/
theorem Fits.finish (h : d.Fits st) (hid : d.ranks[id]? = some (k, x)) (hx : x < d.bound)
    (hp : d.ranks.Suffice x p.Meaningful) (hd : (d.enter id x).Grown d') {st' : Store ι}
    (h' : d'.Fits st') {v : Sequence k} (hv : d'.ranks.Suffice d'.bound (Formed · v)) :
    ∃ d'', d.Grown d'' ∧ d''.Fits (st'.setMemo id p (.forced v)) ∧
      d''.ranks.Suffice d''.bound (Formed · v) := by
  obtain ⟨r, y, running⟩ := d'
  obtain ⟨hr, hbound, hrunning⟩ := hd
  obtain rfl : x = y := hbound.symm
  obtain rfl : (d.enter id x).running = running := hrunning.symm
  have hid' : r[id]? = some (k, x) := Ranks.getElem?_of_grown hr hid
  have hlt : id < st'.cells.size := h'.ranked.size ▸ (List.getElem?_eq_some_iff.1 hid').1
  have hnot : ¬ d.running id := fun hrun => by
    obtain ⟨c, hc, hle⟩ := h.above id hrun
    obtain rfl := Option.some.inj (hid.symm.trans hc)
    exact absurd hx hle.not_gt
  refine ⟨⟨r, d.bound, d.running⟩, ⟨hr, rfl, rfl⟩, ⟨?_, ?_, fun j => ?_, fun j hj => ?_⟩, ?_⟩
  · rw [Store.keeps_setMemo, h'.keeps]
  · refine h'.ranked.setMemo hid' (hp.grown hr) ?_
    rintro _ ⟨⟩
    exact hv
  · rw [Store.running_setMemo hlt, h'.running]
    by_cases hj : id = j
    · subst hj
      simp [h'.keeps, hnot]
    · simp [enter, hj]
  · obtain ⟨c, hc, hle⟩ := h.above j hj
    exact ⟨c, Ranks.getElem?_of_grown hr hc, hle⟩
  · exact hv.mono List.prefix_rfl hx.le

/-- One run beside itself, which may use up its fuel and halts in no other way. -/
def pairing (ι : Type) [Basis ι] : Pairing ι where
  Index := ULift (Depth ι)
  Grown d d' := d.down.Grown d'.down
  refl d := ⟨List.prefix_rfl, rfl, rfl⟩
  trans h h' := ⟨h.ranks.trans h'.ranks, h'.bound.trans h.bound, h'.running.trans h.running⟩
  Covered d := d.down.ranks.Covered d.down.bound
  covered h hw := hw.of_grown h.ranks h.bound.ge
  exists_covered d := ⟨_, d.down.ranks.covered_world d.down.bound .nat⟩
  Related d _ st₀ st := st₀ = st ∧ d.down.Fits st
  keeps h := h.2.keeps
  Seen _ _ _ := True
  seen _ := trivial
  Allowed why := why = .outOfFuel
  outOfFuel := rfl
  request _ h := h
  write note h := ⟨h.1 ▸ rfl, h.2.write note⟩
  alloc h hp := by
    obtain ⟨rfl, h⟩ := h
    obtain ⟨d', hd, h', hs⟩ := h.alloc hp
    exact ⟨rfl, ⟨d'⟩, hd, ⟨rfl, h'⟩, hs⟩

theorem forces : (pairing ι).Forces := by
  rintro fuel hn ⟨d⟩ k id hs asked st _ _ ⟨rfl, h⟩ -
  obtain ⟨x, hid, hx⟩ := Ranks.Suffice.rank hs
  obtain ⟨⟨kind, p, m⟩, hc⟩ : ∃ c, st.cells[id]? = some c :=
    ⟨_, Array.getElem?_eq_getElem (h.ranked.size ▸ (List.getElem?_eq_some_iff.1 hid).1)⟩
  obtain ⟨y, hy, hp, hresult⟩ := h.ranked.cell hc
  obtain ⟨rfl, rfl⟩ := Prod.mk.inj (Option.some.inj (hid.symm.trans hy))
  cases m with
  | running =>
    obtain ⟨c, hc', hle⟩ := h.above id ((h.running id).1 ⟨_, _, hc⟩)
    obtain rfl := Option.some.inj (hid.symm.trans hc')
    exact absurd hx hle.not_gt
  | forced v =>
    exact Pairing.abreast_kept hc hc
      ⟨⟨d⟩, (pairing ι).refl _, ⟨rfl, h⟩, (hresult v rfl).mono List.prefix_rfl hx.le⟩
  | unforced =>
    have hplan := joint_unfold (J := pairing ι) (b := ⟨d.enter id x⟩) (hn fuel le_rfl) hp
    refine Pairing.abreast_force h.keeps h.keeps hc hc trivial (hplan ⟨rfl, h.mark hid hx hc hp⟩) ?_
    rintro v _ st₀' st' ⟨⟨d'⟩, hd, ⟨rfl, h'⟩, hv⟩ - -
    obtain ⟨d'', hd', h'', hv'⟩ := h.finish hid hx hp hd h' hv
    exact ⟨⟨d''⟩, hd', ⟨rfl, h''⟩, hv'⟩

end Depth

namespace Program
variable (program : List (Step ι)) (fuel : Nat)

theorem abreast_itself : (Depth.pairing ι).Abreast
    ((Depth.pairing ι).After ⟨Depth.empty ι⟩ Env.Meaningful) [] Store.empty
    (Program.moments fuel program [] Store.empty) (Program.moments fuel program [] Store.empty)
    (Program.run fuel program [] Store.empty) (Program.run fuel program [] Store.empty) :=
  Program.joint Depth.forces program fuel (fun _ _ => ⟨[], .nil⟩) ⟨rfl, Depth.fits_empty⟩

/-- The stores that programs come to are ranked, and what is below some rank suffices for the registers. -/
theorem run_ranked {program : List (Step ι)} {fuel : Nat} {env : Env ι}
    (h : Program.run fuel program [] Store.empty = .ok (env, st)) :
    st.keeps = true ∧ ∃ r q, st.Ranked r ∧ r.Suffice q env.Meaningful := by
  have hends := (abreast_itself program fuel).ends
  rw [h] at hends
  cases hends with
  | ok hafter =>
    obtain ⟨⟨d⟩, -, ⟨-, hst⟩, henv⟩ := hafter
    exact ⟨hst.keeps, d.ranks, d.bound, hst.ranked, henv⟩

theorem ranked {program : List (Step ι)} {fuel : Nat} {env : Env ι}
    (h : Program.run fuel program [] Store.empty = .ok (env, st)) : ∃ r, st.Ranked r := by
  obtain ⟨-, r, -, hst, -⟩ := run_ranked h
  exact ⟨r, hst⟩

end Program

end MemoSequence
