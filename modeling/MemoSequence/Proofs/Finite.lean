import MemoSequence.Proofs.Lists
import MemoSequence.Proofs.Endlessness
set_option autoImplicit false

namespace MemoSequence
open Stream' (WSeq Seq)
open Stream'.WSeq (think)
open Sequence (Formed trail)

namespace Trail
variable {α β : Type} {d e : Trail α} {p : α × String}

inductive Finite : Trail α → Prop
  | nil : Finite .nil
  | think {d : Trail α} (h : Finite d) : Finite (think d)
  | cons {d : Trail α} (p : α × String) (h : Finite d) : Finite (.cons p d)

theorem nil_ne_think (d : Trail α) : (.nil : Trail α) ≠ think d := front_ne_think none d

theorem cons_ne_think (p : α × String) (d e : Trail α) : WSeq.cons p d ≠ think e :=
  front_ne_think (some (p, d)) e

theorem cons_ne_nil (p : α × String) (d : Trail α) : WSeq.cons p d ≠ .nil := Seq.cons_ne_nil

theorem cons_injective {p p' : α × String} {d d' : Trail α} (h : WSeq.cons p d = .cons p' d') :
    p = p' ∧ d = d' := by
  have hfront : front (some (p, d)) = front (some (p', d')) := h
  exact Prod.mk.inj (Option.some.inj (front_injective hfront))

namespace Finite

theorem of_think (h : Finite (WSeq.think d)) : Finite d := by
  generalize he : WSeq.think d = e at h
  cases h with
  | nil => exact absurd he.symm (nil_ne_think d)
  | think h => exact think_injective he ▸ h
  | cons p h => exact absurd he.symm (cons_ne_think p _ d)

theorem of_cons (h : Finite (.cons p d)) : Finite d := by
  generalize he : WSeq.cons p d = e at h
  cases h with
  | nil => exact absurd he (cons_ne_nil p d)
  | think h => exact absurd he (cons_ne_think p d _)
  | cons p' h => exact (cons_injective he).2 ▸ h

theorem ticks_iff (n : ℕ) : Finite (WSeq.think^[n] d) ↔ Finite d := by
  induction n with
  | zero => rfl
  | succ n ih =>
    rw [Function.iterate_succ_apply', ← ih]
    exact ⟨of_think, think⟩

theorem lists (h : Finite d) : ∃ values, Lists d values := by
  induction h with
  | nil => exact ⟨[], .nil 0⟩
  | think _ ih =>
    obtain ⟨values, hd⟩ := ih
    exact ⟨values, hd.tick⟩
  | cons p _ ih =>
    obtain ⟨values, hd⟩ := ih
    exact ⟨p.1 :: values, .cons_front p.1 p.2 hd⟩

theorem passed_iff {op : Trail α → Trail β} {f : α × String → β × String} (ht : Strict op)
    (hc : ∀ p d, op (.cons p d) = .cons (f p) (op d)) :
    Finite (op d) ↔ Finite d ∧ Finite (op .nil) := by
  constructor
  · intro h
    generalize he : op d = e at h
    induction h generalizing d with
    | nil =>
      induction d using WSeq.recOn with
      | nil => exact ⟨.nil, he ▸ .nil⟩
      | cons p d => exact absurd ((hc p d).symm.trans he) (cons_ne_nil _ _)
      | think d => exact absurd (he.symm.trans (ht d)) (nil_ne_think _)
    | think h ih =>
      induction d using WSeq.recOn with
      | nil => exact ⟨.nil, he ▸ .think h⟩
      | cons p d => exact absurd ((hc p d).symm.trans he) (cons_ne_think _ _ _)
      | think d => exact (ih (think_injective ((ht d).symm.trans he))).imp_left .think
    | cons p h ih =>
      induction d using WSeq.recOn with
      | nil => exact ⟨.nil, he ▸ .cons p h⟩
      | cons p' d => exact (ih (cons_injective ((hc p' d).symm.trans he)).2).imp_left (.cons p')
      | think d => exact absurd (he.symm.trans (ht d)) (cons_ne_think _ _ _)
  · rintro ⟨h, hnil⟩
    induction h with
    | nil => exact hnil
    | @think d _ ih => exact (ht d).symm ▸ .think ih
    | cons p _ ih => exact (hc p _).symm ▸ .cons _ ih

theorem append_iff : Finite (d.append e) ↔ Finite d ∧ Finite e := by
  have h := passed_iff (d := d) (strict_append e) fun p d => WSeq.cons_append p d e
  rwa [WSeq.nil_append] at h

theorem inside_iff : Finite (Trail.inside d) ↔ Finite d := by
  have h := passed_iff (d := d) (α := α) inside_think inside_cons
  rwa [inside_nil, and_iff_left .nil] at h

theorem chained_iff {parts : List (Trail α)} :
    Finite (chained parts) ↔ ∀ d ∈ parts, Finite d := by
  induction parts with
  | nil => simpa using Finite.nil
  | cons d rest ih =>
    cases rest with
    | nil => simp
    | cons e rest =>
      rw [chained_cons d (List.cons_ne_nil e rest), append_iff, inside_iff, ih,
        List.forall_mem_cons (p := Finite) (a := d)]

end Finite

end Trail

section Sources
variable {α β : Type} {source : Source α} {item : α → β}

theorem Source.trail_finite {limit : ℕ}
    (hs : ∀ i, Source.Below (some limit) i → ∃ x, source.at? i = some x) (index : ℕ) :
    (source.trail item (some limit) index).Finite := by
  induction hn : limit - index generalizing index with
  | zero =>
    have hend : ¬ Source.Below (some limit) index := by
      rw [Source.below_some]
      omega
    rw [Source.trail_of_not_below hend]
    exact .nil
  | succ n ih =>
    have hbelow : Source.Below (some limit) index := by
      rw [Source.below_some]
      omega
    obtain ⟨x, hx⟩ := hs index hbelow
    rw [Source.trail_of_below hbelow hx]
    exact .cons _ (ih (index + 1) (by omega))

theorem Source.trail_not_finite (hs : ∀ i, ∃ x, source.at? i = some x) (index : ℕ) :
    ¬ (source.trail item none index).Finite := by
  intro h
  generalize he : source.trail item none index = d at h
  induction h generalizing index with
  | nil =>
    obtain ⟨x, hx⟩ := hs index
    rw [Source.trail_of_below (Source.below_none index) hx] at he
    exact Trail.cons_ne_nil _ _ he
  | think _ _ =>
    obtain ⟨x, hx⟩ := hs index
    rw [Source.trail_of_below (Source.below_none index) hx] at he
    exact Trail.cons_ne_think _ _ _ he
  | cons p _ ih =>
    obtain ⟨x, hx⟩ := hs index
    rw [Source.trail_of_below (Source.below_none index) hx] at he
    exact ih (index + 1) (Trail.cons_injective he).2

end Sources

theorem Lists.finite {α : Type} {d : Trail α} {values : List α} (h : Lists d values) : d.Finite := by
  induction h with
  | nil n => exact (Trail.Finite.ticks_iff n).2 .nil
  | cons n x form _ ih => exact (Trail.Finite.ticks_iff n).2 (.cons (x, form) ih)

variable {ι : Type} [Basis ι] {k : Kind ι} {st : Store ι} {w : World ι}

theorem Store.Endless.not_finite (hst : st.Means w) {s : Sequence k} (h : st.Endless s)
    (hs : Formed w s) : ¬ (trail w s).Finite := by
  induction h with
  | source =>
    cases hs with
    | generated _ hs =>
      exact Source.trail_not_finite (fun i => (hs i (Source.below_none i)).imp fun _ => And.left) _
  | tail _ ih =>
    cases hs with
    | one _ ht => exact fun h => ih ht h.of_cons
  | @part parts s hmem _ ih =>
    cases hs with
    | composite _ _ hp =>
      intro h
      have htrail : trail w (.composite parts) = .chained (parts.contents.map (trail w)) :=
        Node.trail_composite ..
      rw [htrail, Trail.Finite.chained_iff] at h
      exact ih (hp s hmem) (h _ (List.mem_map_of_mem hmem))
  | @value id v hv _ ih =>
    obtain ⟨hf, j, hj⟩ := hst.kept hv
    have htrail : trail w (.lazy id : Sequence k) = think^[j + 1] (trail w v) := hj
    rw [htrail, Trail.Finite.ticks_iff]
    exact ih hf

end MemoSequence
