import Mathlib.Data.List.Forall2
import MemoSequence.Proofs.Elements
import MemoSequence.Kind
set_option autoImplicit false

/-!
# Worlds

A world says for every cell which trail it stands for. In a world an element has a value, in which
sequences count by what they show. A cell keeps its trail when the world grows, and elements keep
their values.

A reading relates what a program handles to what it stands for, in each world. A function reads as
another one if it takes what reads as an argument to what reads as the result, also in grown worlds:
such a function knows a sequence only by what the sequence shows.
-/
namespace MemoSequence
open Stream'.WSeq (think)

variable {ι : Type} [Basis ι]

/-- The values of a kind: an inner sequence counts by what it shows. -/
@[reducible] def Value : Kind ι → Type
  | .base i => Basis.Carrier i
  | .nat => Nat
  | .option k => Option (Value k)
  | .pair a b => Value a × Value b
  | .seq k => Shown (Value k)

/-- The trail of each cell, by number; a world grows at its end. -/
abbrev World (ι : Type) [Basis ι] : Type := List (Σ k : Kind ι, Trail (Value k))

namespace World

def Has (w : World ι) (k : Kind ι) (id : Nat) : Prop := ∃ d, w[id]? = some ⟨k, d⟩

def trail (w : World ι) (k : Kind ι) (id : Nat) : Trail (Value k) :=
  match w[id]? with
  | some ⟨kind, d⟩ => if h : kind = k then h ▸ d else .nil
  | none => .nil

theorem trail_eq {w : World ι} {k : Kind ι} {id : Nat} {d : Trail (Value k)}
    (h : w[id]? = some ⟨k, d⟩) : w.trail k id = d := by
  rw [trail, h]
  exact dif_pos rfl

theorem getElem_of_grown {w w' : World ι} (hw : w <+: w') {id : Nat} {c}
    (h : w[id]? = some c) : w'[id]? = some c := by
  obtain ⟨more, rfl⟩ := hw
  rw [List.getElem?_append_left (List.getElem?_eq_some_iff.1 h).1, h]

theorem Has.mono {w w' : World ι} (hw : w <+: w') {k : Kind ι} {id : Nat} (h : w.Has k id) :
    w'.Has k id := by
  obtain ⟨d, hd⟩ := h
  exact ⟨d, getElem_of_grown hw hd⟩

theorem Has.trail_eq {w w' : World ι} (hw : w <+: w') {k : Kind ι} {id : Nat} (h : w.Has k id) :
    w.trail k id = w'.trail k id := by
  obtain ⟨d, hd⟩ := h
  rw [World.trail_eq hd, World.trail_eq (getElem_of_grown hw hd)]

end World

namespace El

def Formed (w : World ι) : (k : Kind ι) → El k → Prop
  | .base _, _ => True
  | .nat, _ => True
  | .option k, x => ∀ y, x = some y → Formed w k y
  | .pair a b, x => Formed w a x.1 ∧ Formed w b x.2
  | .seq k, s => Node.Formed (w.Has k) (Formed w k) s

def value (w : World ι) : (k : Kind ι) → El k → Value k
  | .base _, x => x
  | .nat, n => n
  | .option k, x => x.map (value w k)
  | .pair a b, x => (value w a x.1, value w b x.2)
  | .seq k, s => ⟨Node.form s, Node.trail (w.trail k) (value w k) s⟩

theorem Formed.mono {w w' : World ι} (hw : w <+: w') {k : Kind ι} {x : El k}
    (h : Formed w k x) : Formed w' k x := by
  induction k with
  | base i => trivial
  | nat => trivial
  | option k ih => exact fun y hy => ih (h y hy)
  | pair a b iha ihb => exact ⟨iha h.1, ihb h.2⟩
  | seq k ih => exact Node.Formed.mono h (fun _ => World.Has.mono hw) fun _ => ih

theorem Formed.value_eq {w w' : World ι} (hw : w <+: w') {k : Kind ι} {x : El k}
    (h : Formed w k x) : value w k x = value w' k x := by
  induction k with
  | base i => rfl
  | nat => rfl
  | option k ih =>
    cases x with
    | none => rfl
    | some y => exact congrArg some (ih (h y rfl))
  | pair a b iha ihb => exact Prod.ext (iha h.1) (ihb h.2)
  | seq k ih =>
    exact congrArg (Shown.mk (Node.form x))
      (Node.Formed.trail_congr h (fun _ => World.Has.trail_eq hw) fun _ => ih)

end El

namespace Sequence
variable {k : Kind ι}

def Formed (w : World ι) (s : Sequence k) : Prop := El.Formed w (.seq k) s

def shown (w : World ι) (s : Sequence k) : Shown (Value k) := El.value w (.seq k) s

def trail (w : World ι) (s : Sequence k) : Trail (Value k) := (shown w s).trail

/-- The elements of a sequence, finitely or endlessly many, each behind any number of ticks. -/
def elements (w : World ι) (s : Sequence k) : Stream'.WSeq (Value k) := (trail w s).elements

def ahead (w : World ι) (current : Sequence k) (opened : List (Segments (Sequence k))) :
    Trail (Value k) :=
  Node.ahead (w.trail k) (El.value w k) current opened

def Queued (w : World ι) (opened : List (Segments (Sequence k))) : Prop :=
  ∀ s ∈ Node.pendingParts opened, s ≠ .empty ∧ Formed w s

theorem queued_nil (w : World ι) : Queued w ([] : List (Segments (Sequence k))) := by
  simp [Queued, Node.pendingParts]

section Grown
variable {w w' : World ι} (hw : w <+: w')
include hw

theorem Formed.mono {s : Sequence k} (h : Formed w s) : Formed w' s := El.Formed.mono hw h

theorem Formed.shown_eq {s : Sequence k} (h : Formed w s) : shown w s = shown w' s :=
  El.Formed.value_eq hw h

theorem Formed.trail_eq {s : Sequence k} (h : Formed w s) : trail w s = trail w' s :=
  congrArg Shown.trail (Formed.shown_eq hw h)

theorem Queued.mono {opened : List (Segments (Sequence k))} (h : Queued w opened) :
    Queued w' opened := fun s hs => ⟨(h s hs).1, (h s hs).2.mono hw⟩

end Grown

theorem shown_concat (w : World ι) (a : Sequence k) {b : Sequence k} (hb : Formed w b) :
    shown w (Node.concat a b) = (shown w a).concat (shown w b) := by
  have hf : Node.form (Node.concat a b) =
      if Node.form b = "Empty" then Node.form a
      else if Node.form a = "Empty" then Node.form b else "Composite" := Node.form_concat a b
  unfold Shown.concat
  by_cases eb : (shown w b).form = "Empty"
  · rw [if_pos eb, (Node.form_eq_empty b).1 eb, Node.concat_empty]
  · rw [if_neg eb]
    by_cases ea : (shown w a).form = "Empty"
    · rw [if_pos ea, (Node.form_eq_empty a).1 ea, Node.empty_concat]
    · rw [if_neg ea]
      rw [if_neg (show ¬ Node.form b = "Empty" from eb),
        if_neg (show ¬ Node.form a = "Empty" from ea)] at hf
      exact congrArg₂ Shown.mk hf (Node.trail_concat _ _ a hb (mt (Node.form_eq_empty b).2 eb))

theorem trail_slice (w : World ι) (elements rest : List (El k)) (n : Nat)
    (h : elements.drop n = rest) :
    (Source.slice elements.toArray).trail (El.value w k) (some elements.length) n =
      Trail.listed (rest.map (El.value w k)) := by
  induction rest generalizing n with
  | nil =>
    have hl : elements.length ≤ n := List.drop_eq_nil_iff.1 h
    exact Source.trail_of_not_below (by simpa using hl)
  | cons x rest ih =>
    have hn : n < elements.length := by
      by_contra hge
      rw [List.drop_eq_nil_of_le (Nat.le_of_not_lt hge)] at h
      exact List.cons_ne_nil x rest h.symm
    rw [List.drop_eq_getElem_cons hn] at h
    obtain ⟨hx, hr⟩ := List.cons.inj h
    have hat : (Source.slice elements.toArray).at? n = some x := by simp [Source.at?, hn, hx]
    have hmore : (n + 1 < elements.length) ↔ ¬ rest.map (El.value w k) = [] := by
      rw [List.map_eq_nil_iff, ← hr, List.drop_eq_nil_iff, Nat.not_le]
    rw [Source.trail_of_below ((Source.below_some _ _).2 hn) hat, ih (n + 1) hr, List.map_cons,
      Trail.listed]
    simp only [Source.below_some, hmore, ite_not]

theorem shown_ofList (w : World ι) (elements : List (El k)) :
    shown w (Node.ofList elements) = .ofList (elements.map (El.value w k)) := by
  cases elements with
  | nil => rfl
  | cons x rest => exact congrArg (Shown.mk "Generated") (trail_slice w _ _ 0 rfl)

end Sequence

universe u v

/-- What an `X` stands for, world by world. -/
abbrev Reading (ι : Type) [Basis ι] (X : Type u) (V : Type v) : Type (max u v) :=
  World ι → X → V → Prop

namespace Reading
variable {X Y : Type u} {V U : Type v}

/-- What reads as `v` still does when the world has grown. -/
def Lasting (R : Reading ι X V) : Prop := ∀ ⦃w w'⦄, w <+: w' → ∀ ⦃x v⦄, R w x v → R w' x v

def same (X : Type u) : Reading ι X X := fun _ x v => x = v

def fn {X : Type*} {V : Type*} {Y : Type*} {U : Type*} (R : Reading ι X V) (S : Reading ι Y U) :
    Reading ι (X → Y) (V → U) :=
  fun w f g => ∀ w', w <+: w' → ∀ x v, R w' x v → S w' (f x) (g v)

def prod (R : Reading ι X V) (S : Reading ι Y U) : Reading ι (X × Y) (V × U) :=
  fun w p q => R w p.1 q.1 ∧ S w p.2 q.2

def list (R : Reading ι X V) : Reading ι (List X) (List V) := fun w => List.Forall₂ (R w)

theorem lasting_same (X : Type u) : Lasting (same X : Reading ι X X) := fun _ _ _ _ _ h => h

theorem lasting_fn (R : Reading ι X V) (S : Reading ι Y U) : Lasting (R.fn S) :=
  fun _ _ hw _ _ h w'' hw' => h w'' (hw.trans hw')

theorem Lasting.list {R : Reading ι X V} (hR : R.Lasting) : Lasting R.list :=
  fun _ _ hw _ _ h => List.Forall₂.imp (fun _ _ hx => hR hw hx) h

end Reading

def El.reading (k : Kind ι) : Reading ι (El k) (Value k) :=
  fun w x v => El.Formed w k x ∧ El.value w k x = v

theorem El.lasting_reading (k : Kind ι) : (El.reading k).Lasting :=
  fun _ _ hw _ _ h => ⟨h.1.mono hw, h.2 ▸ (h.1.value_eq hw).symm⟩

theorem El.list_reading_iff {k : Kind ι} {w : World ι} {xs : List (El k)} {values : List (Value k)} :
    (El.reading k).list w xs values ↔ (∀ x ∈ xs, El.Formed w k x) ∧ xs.map (El.value w k) = values := by
  constructor
  · intro h
    induction h with
    | nil => exact ⟨fun _ hx => absurd hx List.not_mem_nil, rfl⟩
    | cons hx _ ih =>
      obtain ⟨hformed, rfl⟩ := ih
      exact ⟨List.forall_mem_cons.2 ⟨hx.1, hformed⟩, congrArg (· :: _) hx.2⟩
  · rintro ⟨hformed, rfl⟩
    exact List.forall₂_map_right_iff.2 (List.forall₂_same.2 fun x hx => ⟨hformed x hx, rfl⟩)

section Options
variable {w : World ι} {k : Kind ι} {x : El k} {v : Value k}

theorem El.reading_none (w : World ι) (k : Kind ι) : El.reading (.option k) w none none :=
  ⟨fun _ hy => absurd hy.symm (Option.some_ne_none _), rfl⟩

theorem El.reading_some (h : El.reading k w x v) : El.reading (.option k) w (some x) (some v) :=
  ⟨fun _ hy => Option.some.inj hy ▸ h.1, congrArg some h.2⟩

theorem El.reading_option {y : Option (El k)} {u : Option (Value k)} (h : El.reading (.option k) w y u) :
    Option.Rel (El.reading k w) y u := by
  obtain ⟨hformed, rfl⟩ := h
  cases y with
  | none => exact .none
  | some x => exact .some ⟨hformed x rfl, rfl⟩

end Options

theorem Sequence.reading_ofList {w : World ι} {k : Kind ι} {elements : List (El k)}
    {values : List (Value k)} (h : (El.reading k).list w elements values) :
    El.reading (.seq k) w (Node.ofList elements) (.ofList values) := by
  obtain ⟨hformed, rfl⟩ := El.list_reading_iff.1 h
  exact ⟨Node.formed_of_list hformed, Sequence.shown_ofList w elements⟩

end MemoSequence
