import Mathlib.Algebra.Order.Field.Basic
import Mathlib.Algebra.Order.Field.Rat
import Mathlib.Order.CountableDenseLinearOrder
import MemoSequence.Proofs.Extraction
set_option autoImplicit false

/-!
# Ranks

Every cell gets a rank when it is made, between the cell it is made for and everything below that one.
A store is ranked when plan and result of each cell speak of cells of lower rank only; so no cell is
reached again through its own result.

A plan holds functions, so which cells it speaks of cannot be read off. Instead it has to be formed in
every world that has the cells below a rank, whatever else this world lacks.
-/
namespace MemoSequence
open Sequence (Formed)

theorem Kind.seq_ne {ι : Type} (k : Kind ι) : k.seq ≠ k := by
  intro h
  have hsize := congrArg sizeOf h
  simp at hsize

variable {ι : Type} [Basis ι]

/-- Kind and rank of each cell, by number; like a world, ranks grow at the end. -/
abbrev Ranks (ι : Type) [Basis ι] : Type := List (Kind ι × ℚ)

namespace Ranks
variable {r r' : Ranks ι} {q q' : ℚ} {k : Kind ι} {P P' : World ι → Prop}

def Covered (r : Ranks ι) (q : ℚ) (w : World ι) : Prop :=
  ∀ ⦃id k x⦄, r[id]? = some (k, x) → x < q → w.Has k id

/-- With the cells of ranks below `q` there is all that `P` asks for. -/
def Suffice (r : Ranks ι) (q : ℚ) (P : World ι → Prop) : Prop := ∀ w, r.Covered q w → P w

theorem getElem?_of_grown (hr : r <+: r') {id : Nat} {c : Kind ι × ℚ} (h : r[id]? = some c) :
    r'[id]? = some c := by
  obtain ⟨more, rfl⟩ := hr
  rw [List.getElem?_append_left (List.getElem?_eq_some_iff.1 h).1, h]

theorem Covered.of_grown {w : World ι} (h : r'.Covered q' w) (hr : r <+: r') (hq : q ≤ q') :
    r.Covered q w := fun _ _ _ hid hx => h (getElem?_of_grown hr hid) (hx.trans_le hq)

theorem Suffice.mono (h : r.Suffice q P) (hr : r <+: r') (hq : q ≤ q') : r'.Suffice q' P :=
  fun w hw => h w (hw.of_grown hr hq)

theorem Suffice.grown (h : r.Suffice q P) (hr : r <+: r') : r'.Suffice q P := h.mono hr le_rfl

theorem Suffice.imp (h : r.Suffice q P) (hp : ∀ w, P w → P' w) : r.Suffice q P' :=
  fun w hw => hp w (h w hw)

theorem Suffice.imp₂ {Q : World ι → Prop} (h : r.Suffice q P) (h' : r.Suffice q P')
    (hp : ∀ w, P w → P' w → Q w) : r.Suffice q Q := fun w hw => hp w (h w hw) (h' w hw)

/-- There is room for one more rank, right below `q`. -/
theorem exists_rank (r : Ranks ι) (q : ℚ) : ∃ x < q, ∀ c ∈ r, c.2 < q → c.2 < x := by
  obtain ⟨x, hlow, hhigh⟩ :=
    Order.exists_between_finsets ((r.map Prod.snd).toFinset.filter (· < q)) {q} (by simp)
  refine ⟨x, by simpa using hhigh, fun c hc hq => hlow c.2 ?_⟩
  simp only [Finset.mem_filter, List.mem_toFinset, List.mem_map]
  exact ⟨⟨c, hc, rfl⟩, hq⟩

section Reading

def world (r : Ranks ι) (q : ℚ) (k : Kind ι) : World ι :=
  r.map fun c => if c.2 < q then ⟨c.1, .nil⟩ else ⟨.seq k, .nil⟩

theorem getElem?_world {id : Nat} {x : ℚ} (h : r[id]? = some (k, x)) (other : Kind ι) :
    (r.world q other)[id]? = some (if x < q then ⟨k, .nil⟩ else ⟨.seq other, .nil⟩) := by
  rw [world, List.getElem?_map, h]
  rfl

theorem covered_world (r : Ranks ι) (q : ℚ) (k : Kind ι) : r.Covered q (r.world q k) := by
  intro id kind x hid hx
  refine ⟨.nil, ?_⟩
  rw [getElem?_world hid, if_pos hx]

theorem rank_of_has {id : Nat} (h : (r.world q k).Has k id) :
    ∃ x, r[id]? = some (k, x) ∧ x < q := by
  obtain ⟨d, hd⟩ := h
  obtain ⟨⟨kind, x⟩, hid⟩ : ∃ c, r[id]? = some c := by
    have hlt : id < r.length := by
      simpa [world] using (List.getElem?_eq_some_iff.1 hd).1
    exact ⟨_, List.getElem?_eq_getElem hlt⟩
  rw [getElem?_world hid] at hd
  by_cases hx : x < q
  · rw [if_pos hx] at hd
    obtain ⟨rfl, -⟩ := Sigma.mk.inj (Option.some.inj hd)
    exact ⟨x, hid, hx⟩
  · rw [if_neg hx] at hd
    exact absurd (Sigma.mk.inj (Option.some.inj hd)).1 k.seq_ne

theorem Suffice.formed {s : Sequence k} (h : r.Suffice q (Formed · s)) :
    Node.Formed (fun id => ∃ x, r[id]? = some (k, x) ∧ x < q) (fun _ => True) s :=
  Node.Formed.mono (h _ (r.covered_world q k)) (fun _ => rank_of_has) fun _ _ => trivial

theorem Suffice.rank {id : Nat} (h : r.Suffice q (Formed · (.lazy id : Sequence k))) :
    ∃ x, r[id]? = some (k, x) ∧ x < q := by
  cases h.formed with
  | lazy hc => exact hc

end Reading

end Ranks

namespace Plan
variable {k a b : Kind ι} {w : World ι}

/-- The plan shows something, and its functions read as functions on values. -/
def Meaningful (p : Plan k) (w : World ι) : Prop := ∃ S, p.Means w S

@[simp] theorem meaningful_given {s : Sequence k} : (Plan.given s).Meaningful w ↔ Sequence.Formed w s :=
  ⟨fun ⟨_, h⟩ => h.1, fun h => ⟨_, h, rfl⟩⟩

@[simp] theorem meaningful_cons {head : El k} {tail : Plan k} :
    (Plan.cons head tail).Meaningful w ↔ El.Formed w k head ∧ tail.Meaningful w := by
  constructor
  · rintro ⟨_, v, T, hv, hT, -⟩
    exact ⟨hv.1, T, hT⟩
  · rintro ⟨hv, T, hT⟩
    exact ⟨_, _, T, ⟨hv, rfl⟩, hT, rfl⟩

@[simp] theorem meaningful_append {a b : Plan k} :
    (Plan.append a b).Meaningful w ↔ a.Meaningful w ∧ b.Meaningful w := by
  constructor
  · rintro ⟨_, A, B, hA, hB, -⟩
    exact ⟨⟨A, hA⟩, B, hB⟩
  · rintro ⟨⟨A, hA⟩, B, hB⟩
    exact ⟨_, A, B, hA, hB, rfl⟩

theorem meaningful_defer {note : Option Note} {body : Unit → Plan k} :
    (Plan.defer note body).Meaningful w ↔ (body ()).Meaningful w := by
  constructor
  · rintro ⟨_, T, hT, -⟩
    exact ⟨T, hT⟩
  · rintro ⟨T, hT⟩
    exact ⟨_, T, hT, rfl⟩

/-- A form with one input, which another one may take the place of. -/
structure Asks (F : Plan a → Plan k) : Prop where
  input : ∀ {p : Plan a} {w : World ι}, (F p).Meaningful w → p.Meaningful w
  replace : ∀ {p p' : Plan a} {w : World ι}, (F p).Meaningful w → p'.Meaningful w → (F p').Meaningful w

theorem asks_map (f : Fn (El a) (El k)) : Asks fun input => .map input f where
  input := fun ⟨_, T, _, hT, _⟩ => ⟨T, hT⟩
  replace := fun ⟨_, _, g, _, hg, _⟩ ⟨T, hT⟩ => ⟨_, T, g, hT, hg, rfl⟩

theorem asks_mapPlan (f : El a → Plan k) (note : El a → Option Note) :
    Asks fun input => .mapPlan input f note where
  input := fun ⟨_, T, _, hT, _⟩ => ⟨T, hT⟩
  replace := fun ⟨_, _, g, _, hg, _⟩ ⟨T, hT⟩ => ⟨_, T, g, hT, hg, rfl⟩

theorem asks_flatten : Asks fun outer : Plan (.seq k) => .flatten outer where
  input := fun ⟨_, T, hT, _⟩ => ⟨T, hT⟩
  replace := fun _ ⟨T, hT⟩ => ⟨_, T, hT, rfl⟩

theorem asks_take (count : Nat) : Asks fun input : Plan k => .take input count where
  input := fun ⟨_, T, hT, _⟩ => ⟨T, hT⟩
  replace := fun _ ⟨T, hT⟩ => ⟨_, T, hT, rfl⟩

theorem asks_takeWhile (p : Fn (El k) Bool) : Asks fun input => .takeWhile input p where
  input := fun ⟨_, T, _, hT, _⟩ => ⟨T, hT⟩
  replace := fun ⟨_, _, g, _, hg, _⟩ ⟨T, hT⟩ => ⟨_, T, g, hT, hg, rfl⟩

theorem asks_skip (count : Nat) : Asks fun input : Plan k => .skip input count where
  input := fun ⟨_, T, hT, _⟩ => ⟨T, hT⟩
  replace := fun _ ⟨T, hT⟩ => ⟨_, T, hT, rfl⟩

theorem asks_scan {σ : Type} (state : σ) (step : Fn (σ × El a) (El k × σ)) :
    Asks fun input => .scan input state step where
  input := fun ⟨_, T, _, _, _, _, _, hT, _⟩ => ⟨T, hT⟩
  replace := fun ⟨_, _, τ, R, t, g, hR, _, ht, hg, _⟩ ⟨T, hT⟩ =>
    ⟨_, T, τ, R, t, g, hR, hT, ht, hg, rfl⟩

theorem asks_stateScan {σ : Type} (state : σ) (step : Fn (σ × El a) (List (El k) × σ)) :
    Asks fun input => .stateScan input state step where
  input := fun ⟨_, T, _, _, _, _, _, hT, _⟩ => ⟨T, hT⟩
  replace := fun ⟨_, _, τ, R, t, g, hR, _, ht, hg, _⟩ ⟨T, hT⟩ =>
    ⟨_, T, τ, R, t, g, hR, hT, ht, hg, rfl⟩

end Plan

/-- Plan and result of every cell get along with the cells of lower rank. -/
structure Store.Ranked (st : Store ι) (r : Ranks ι) : Prop where
  size : st.cells.size = r.length
  cell : ∀ {id : Nat} {k : Kind ι} {p : Plan k} {m : Memo (Sequence k)},
    st.cells[id]? = some ⟨k, p, m⟩ → ∃ x, r[id]? = some (k, x) ∧ r.Suffice x p.Meaningful ∧
      ∀ v, m = .forced v → r.Suffice x (Formed · v)

def Store.RankedFor (st : Store ι) (r : Ranks ι) (q : ℚ) (P : World ι → Prop) : Prop :=
  ∃ r' : Ranks ι, r <+: r' ∧ st.Ranked r' ∧ r'.Suffice q P

section Building
variable {st : Store ι} {r : Ranks ι} {q : ℚ} {k : Kind ι}

theorem Store.ranked_empty (keeps : Bool) (journal : Array Note) :
    (⟨#[], journal, keeps⟩ : Store ι).Ranked [] where
  size := rfl
  cell h := by simp at h

theorem Store.Ranked.kept (h : st.Ranked r) {id : Nat} {v : Sequence k}
    (hv : st.peek? k id = some v) : ∃ x, r[id]? = some (k, x) ∧ r.Suffice x (Formed · v) := by
  obtain ⟨p, hc⟩ := Store.peek?_eq_some.1 hv
  obtain ⟨x, hid, -, hresult⟩ := h.cell hc
  exact ⟨x, hid, hresult v rfl⟩

theorem Store.Ranked.of_cells {st' : Store ι} (h : st.Ranked r) (hc : st'.cells = st.cells) :
    st'.Ranked r where
  size := hc ▸ h.size
  cell := by rw [hc]; exact h.cell

theorem Store.Ranked.alloc (h : st.Ranked r) {p : Plan k} (hp : r.Suffice q p.Meaningful) :
    (st.alloc p).2.RankedFor r q (Formed · (st.alloc p).1) := by
  obtain ⟨x, hx, hbelow⟩ := r.exists_rank q
  have hr : r <+: r ++ [(k, x)] := List.prefix_append _ _
  have hnew : (r ++ [(k, x)])[st.cells.size]? = some (k, x) := by
    rw [h.size]
    exact List.getElem?_concat_length
  -- what is below `q` is below the new rank, so the plan finds there what it asks for
  have hplan : (r ++ [(k, x)]).Suffice x p.Meaningful := by
    refine fun w hw => hp w fun id kind y hid hy => ?_
    exact (hw.of_grown hr le_rfl) hid (hbelow _ (List.mem_of_getElem? hid) hy)
  refine ⟨r ++ [(k, x)], hr, ⟨by simp [Store.alloc, h.size], ?_⟩, fun w hw => Node.Formed.lazy (hw hnew hx)⟩
  intro id kind plan memo hc
  simp only [Store.alloc, Array.getElem?_push] at hc
  split at hc
  · next hid =>
    cases hc
    exact ⟨x, hid ▸ hnew, hplan, fun v hv => by cases hv⟩
  · obtain ⟨y, hy, hplan, hresult⟩ := h.cell hc
    exact ⟨y, Ranks.getElem?_of_grown hr hy, hplan.grown hr, fun v hv => (hresult v hv).grown hr⟩

theorem Store.Ranked.setMemo (h : st.Ranked r) {id : Nat} {p : Plan k} {m : Memo (Sequence k)}
    {x : ℚ} (hid : r[id]? = some (k, x)) (hp : r.Suffice x p.Meaningful)
    (hm : ∀ v, m = .forced v → r.Suffice x (Formed · v)) : (st.setMemo id p m).Ranked r where
  size := by rw [Store.size_setMemo, h.size]
  cell hc := by
    have hlt : id < st.cells.size := h.size ▸ (List.getElem?_eq_some_iff.1 hid).1
    rw [Store.getElem?_setMemo hlt] at hc
    split at hc
    · next hj =>
      obtain ⟨-, rfl⟩ := hj
      cases hc
      exact ⟨x, hid, hp, hm⟩
    · exact h.cell hc

end Building

end MemoSequence
