import Mathlib.Order.WellFoundedSet
import MemoSequence.Proofs.Correctness
import MemoSequence.Proofs.Finite
import MemoSequence.Proofs.RankedRuns
import MemoSequence.Proofs.Settled
set_option autoImplicit false

/-!
# What the search for an endless source tells

That a sequence is known to be endless is never wrong: whoever asks for one element after the other does
not come to an end. And where everything that can be reached has been forced, nothing is missed: a
sequence that is not known to be endless is finite there, since kept results never lead back to their own
cell. What is known stays known.
-/
namespace MemoSequence
open Stream'.WSeq (think)
open Sequence (Formed trail)

variable {ι : Type} [Basis ι] {k : Kind ι}

namespace Store
variable {st : Store ι}

/-- A node can be reached through tails, parts of composites and kept results. -/
inductive Reaches (st : Store ι) : Sequence k → Sequence k → Prop
  | refl (s : Sequence k) : Reaches st s s
  | tail {head : El k} {tail t : Sequence k} (h : Reaches st tail t) : Reaches st (.one head tail) t
  | part {parts : Segments (Sequence k)} {s t : Sequence k} (hs : s ∈ parts.contents)
      (h : Reaches st s t) : Reaches st (.composite parts) t
  | value {id : Nat} {v t : Sequence k} (hv : st.peek? k id = some v) (h : Reaches st v t) :
      Reaches st (.lazy id) t

def Forced (st : Store ι) (s : Sequence k) : Prop :=
  ∀ id, st.Reaches s (.lazy id) → ∃ v, st.peek? k id = some v

theorem Reaches.trans {s t u : Sequence k} (h : st.Reaches s t) (h' : st.Reaches t u) :
    st.Reaches s u := by
  induction h with
  | refl => exact h'
  | tail _ ih => exact .tail (ih h')
  | part hs _ ih => exact .part hs (ih h')
  | value hv _ ih => exact .value hv (ih h')

theorem Reaches.endless {s t : Sequence k} (h : st.Reaches s t) (he : st.Endless t) :
    st.Endless s := by
  induction h with
  | refl => exact he
  | tail _ ih => exact .tail (ih he)
  | part hs _ ih => exact .part hs (ih he)
  | value hv _ ih => exact .value hv (ih he)

theorem Forced.of_reaches {s t : Sequence k} (hf : st.Forced s) (h : st.Reaches s t) :
    st.Forced t := fun id hid => hf id (h.trans hid)

end Store

namespace Sequence

/-- From a sequence and a store to another one by extracting elements, one after the other. -/
inductive Chain : Sequence k → Store ι → Sequence k → Store ι → Prop
  | start (s : Sequence k) (st : Store ι) : Chain s st s st
  | next {s t u : Sequence k} {st st₁ st₂ : Store ι} {x : El k} {fuel : Nat}
      (h : Sequence.next fuel s st = .ok (some (x, t), st₁)) (hc : Chain t st₁ u st₂) :
      Chain s st u st₂

def RunsOut (s : Sequence k) (st : Store ι) : Prop :=
  ∃ t st₁, Chain s st t st₁ ∧ ∃ fuel st₂, Sequence.next fuel t st₁ = .ok (none, st₂)

end Sequence

section Ends
variable {st : Store ι} {w : World ι} {s : Sequence k}

theorem Sequence.RunsOut.finite (hst : st.Means w) (hs : Formed w s) (h : Sequence.RunsOut s st) :
    (trail w s).Finite := by
  obtain ⟨t, st₁, hc, fuel, st₂, hnone⟩ := h
  induction hc generalizing w with
  | start s st =>
    obtain ⟨w', -, htells⟩ := next_sound fuel hnone hst hs
    obtain ⟨n, hd⟩ := Sequence.tells_none.1 htells
    rw [hd, Trail.Finite.ticks_iff]
    exact .nil
  | next h _ ih =>
    obtain ⟨w', hl, htells⟩ := next_sound _ h hst hs
    obtain ⟨⟨n, hd⟩, -, ht⟩ := Sequence.tells_some.1 htells
    rw [hd, Trail.Finite.ticks_iff]
    exact .cons _ (ih hl.means ht hnone)

theorem Lists.runsOut {d : Trail (Value k)} {values : List (Value k)} (h : Lists d values)
    (hst : st.Means w) (hquiet : ∀ id, ¬ st.Running id) (hs : Formed w s) (hd : trail w s = d) :
    Sequence.RunsOut s st := by
  induction h generalizing s st w with
  | nil n =>
    obtain ⟨st₁, w₁, hgives, -⟩ := next_gives_none hst hquiet hs hd
    obtain ⟨fuel, hnext⟩ := hgives.run
    exact ⟨s, st, .start s st, fuel, st₁, hnext⟩
  | cons n v form _ ih =>
    obtain ⟨x, tail, st₁, w₁, hgives, hl, -, htail⟩ := next_gives_some hst hquiet hs hd
    obtain ⟨fuel, hnext⟩ := hgives.run
    obtain ⟨t, st₂, hc, hend⟩ :=
      ih hl.means (hl.quiet hquiet) htail.1 (congrArg Shown.trail htail.2)
    exact ⟨t, st₂, .next hnext hc, hend⟩

end Ends

section Finite
variable {st : Store ι} {w : World ι} {r : Ranks ι}

theorem finite_of_cells {cell : Nat → Prop} {item : El k → Prop} {s : Sequence k}
    (hf : Node.Formed cell item s) (hs : Formed w s) (he : ¬ st.Endless s)
    (hcells : ∀ id, cell id → st.Reaches s (.lazy id : Sequence k) → (w.trail k id).Finite) :
    (trail w s).Finite := by
  induction hf with
  | empty => exact .nil
  | one _ _ ih =>
    cases hs with
    | one _ ht =>
      exact .cons _ (ih ht (fun h => he (.tail h)) fun id hid h => hcells id hid (.tail h))
  | @composite parts _ _ _ ih =>
    have htrail : trail w (.composite parts) = .chained (parts.contents.map (trail w)) :=
      Node.trail_composite ..
    cases hs with
    | composite _ _ hp =>
      rw [htrail, Trail.Finite.chained_iff, List.forall_mem_map]
      exact fun s hmem => ih s hmem (hp s hmem) (fun h => he (.part hmem h))
        fun id hid h => hcells id hid (.part hmem h)
  | @generated index limit source _ hsource =>
    cases limit with
    | none => exact absurd .source he
    | some l => exact Source.trail_finite (fun i hi => (hsource i hi).imp fun _ => And.left) index
  | lazy hc => exact hcells _ hc (.refl _)

/-- On the rank of the cell: its result speaks of cells of lower rank. -/
theorem cell_finite (hst : st.Means w) (hr : st.Ranked r) {id : Nat} {x : ℚ}
    (hid : r[id]? = some (k, x)) (hf : st.Forced (.lazy id : Sequence k))
    (he : ¬ st.Endless (.lazy id : Sequence k)) : (w.trail k id).Finite := by
  have hwf : {y | y ∈ r.map Prod.snd}.WellFoundedOn (· < ·) :=
    (List.finite_toSet _).wellFoundedOn
  have hmem : ∀ {id : Nat} {y : ℚ}, r[id]? = some (k, y) → y ∈ {y | y ∈ r.map Prod.snd} :=
    fun hid => List.mem_map.2 ⟨_, List.mem_of_getElem? hid, rfl⟩
  refine hwf.induction (P := fun x => ∀ id, r[id]? = some (k, x) →
    st.Forced (.lazy id : Sequence k) → ¬ st.Endless (.lazy id : Sequence k) →
    (w.trail k id).Finite) (hmem hid) (fun x _ ih id hid hf he => ?_) id hid hf he
  obtain ⟨v, hv⟩ := hf id (.refl _)
  obtain ⟨hformed, j, hj⟩ := hst.kept hv
  obtain ⟨z, hz, hv'⟩ := hr.kept hv
  obtain ⟨-, rfl⟩ := Prod.mk.inj (Option.some.inj (hid.symm.trans hz))
  rw [hj, Trail.Finite.ticks_iff]
  refine finite_of_cells hv'.formed hformed (fun h => he (.value hv h)) ?_
  rintro id' ⟨y, hy, hlt⟩ hreach
  have hreach' : st.Reaches (.lazy id : Sequence k) (.lazy id') := .value hv hreach
  exact ih y (hmem hy) hlt id' hy (hf.of_reaches hreach') fun h => he (hreach'.endless h)

theorem finite_of_forced (hst : st.Means w) (hr : st.Ranked r) {s : Sequence k} (hs : Formed w s)
    (hf : st.Forced s) (he : ¬ st.Endless s) : (trail w s).Finite := by
  refine finite_of_cells hs hs he fun id _ hreach => ?_
  obtain ⟨v, hv⟩ := hf id hreach
  obtain ⟨x, hid, -⟩ := hr.kept hv
  exact cell_finite hst hr hid (hf.of_reaches hreach) fun h => he (hreach.endless h)

end Finite

/-- What the search for an endless source tells of a sequence can be relied on. -/
structure Store.Reliable (st : Store ι) (s : Sequence k) : Prop where
  endless : st.isUnbounded s = true → ¬ Sequence.RunsOut s st
  finite : st.Forced s → st.isUnbounded s = false →
    Sequence.RunsOut s st ∧ Returns (fun fuel => Sequence.toList fuel s) st
  lasts : st.isUnbounded s = true → ∀ {program : List (Step ι)} {fuel : ℕ} {env env' : Env ι}
    {st' : Store ι}, Program.run fuel program env st = .ok (env', st') →
      st'.isUnbounded s = true
  unchanged : Run.view (·.isUnbounded s) st = .ok (st.isUnbounded s, st)

theorem isUnbounded_reliable {program : List (Step ι)} {fuel : ℕ} {env : Env ι} {st : Store ι}
    (h : Program.run fuel program [] Store.empty = .ok (env, st)) :
    ∃ w : World ι, st.Means w ∧ (∀ r ∈ env, El.Formed w r.1 r.2) ∧
      ∀ (k : Kind ι) (s : Sequence k), Formed w s → st.Reliable s := by
  obtain ⟨vs, w, -, hkept⟩ := Program.run_keeps program kept_empty h
  obtain ⟨r, hr⟩ := Program.ranked h
  refine ⟨w, hkept.means, formed_of_reads hkept.reads, fun k s hs => ⟨?_, ?_, ?_, rfl⟩⟩
  · intro he hend
    exact ((Store.isUnbounded_iff s).1 he).not_finite hkept.means hs (hend.finite hkept.means hs)
  · intro hf he
    have hne : ¬ st.Endless s := by
      rw [← Store.isUnbounded_iff, he]
      exact Bool.false_ne_true
    obtain ⟨values, hv⟩ := (finite_of_forced hkept.means hr hs hf hne).lists
    obtain ⟨elements, st', w', hgives, -⟩ := hv.collects hkept.means hkept.quiet hs
    exact ⟨hv.runsOut hkept.means hkept.quiet hs rfl, elements, st', hgives⟩
  · intro he program fuel env env' st' hrun
    exact (Program.settling program fuel env hrun).isUnbounded he

def revealing : List (Step Atom) :=
  [.make (.generate none) [],
   .make (k := .nat) (.skip 0 3) [0],
   .next .nat 1]

theorem revealing_reliable :
    ∃ env st, Program.run 10 revealing [] Store.empty = .ok (env, st) ∧
      st.isUnbounded (env.seq .nat 1) = true ∧
      ∃ w : World Atom, st.Means w ∧ (∀ r ∈ env, El.Formed w r.1 r.2) ∧
        ∀ (k : Kind Atom) (s : Sequence k), Formed w s → st.Reliable s := by
  have hrun := (rfl : Program.run 10 revealing [] Store.empty = .ok (_, _))
  refine ⟨_, _, hrun, (Store.isUnbounded_iff _).2 ?_, isUnbounded_reliable hrun⟩
  exact .value rfl .source

end MemoSequence
