import Mathlib.Data.List.Forall2
import MemoSequence.Segments
set_option autoImplicit false

namespace MemoSequence.Segments

universe u v w x

inductive Operation (σ : Type u) where
  | pair (first second : σ)
  | pushFront (version : ℕ) (x : σ)
  | pushBack (version : ℕ) (x : σ)
  | popFront (version : ℕ)

/-- A way to keep queues `κ`, where operations may write to a memory `μ`. -/
structure Queues (σ : Type u) (μ : Type v) (κ : Type w) where
  pair : σ → σ → μ → κ × μ
  pushFront : κ → σ → μ → κ × μ
  pushBack : κ → σ → μ → κ × μ
  popFront : κ → μ → Option (σ × κ) × μ

structure Versions (σ : Type u) (μ : Type v) (κ : Type w) where
  memory : μ
  queues : List κ
  popped : List (Option σ)

variable {σ : Type u} {μ : Type v} {κ : Type w} {ρ : Type x}

namespace Versions

def at? (vs : Versions σ μ κ) (i : ℕ) (f : κ → Versions σ μ κ) : Versions σ μ κ :=
  match vs.queues[i]? with
  | some q => f q
  | none => vs

def push (vs : Versions σ μ κ) (made : κ × μ) : Versions σ μ κ :=
  ⟨made.2, vs.queues ++ [made.1], vs.popped⟩

def pop (vs : Versions σ μ κ) : Option (σ × κ) × μ → Versions σ μ κ
  | (some (x, q), memory) => ⟨memory, vs.queues ++ [q], vs.popped ++ [some x]⟩
  | (none, memory) => ⟨memory, vs.queues, vs.popped ++ [none]⟩

theorem at?_queues {vs : Versions σ μ κ} {f : κ → Versions σ μ κ} (i : ℕ)
    (hf : ∀ q, vs.queues <+: (f q).queues) : vs.queues <+: (vs.at? i f).queues := by
  unfold at?
  split
  · exact hf _
  · exact List.prefix_rfl

theorem pop_queues (vs : Versions σ μ κ) (popped : Option (σ × κ) × μ) :
    vs.queues <+: (vs.pop popped).queues := by
  unfold pop
  split
  · exact List.prefix_append _ _
  · exact List.prefix_rfl

end Versions

namespace Queues

def perform (ops : Queues σ μ κ) (vs : Versions σ μ κ) : Operation σ → Versions σ μ κ
  | .pair first second => vs.push (ops.pair first second vs.memory)
  | .pushFront i x => vs.at? i fun q => vs.push (ops.pushFront q x vs.memory)
  | .pushBack i x => vs.at? i fun q => vs.push (ops.pushBack q x vs.memory)
  | .popFront i => vs.at? i fun q => vs.pop (ops.popFront q vs.memory)

def run (ops : Queues σ μ κ) (vs : Versions σ μ κ) (history : List (Operation σ)) : Versions σ μ κ :=
  history.foldl ops.perform vs

def after (ops : Queues σ μ κ) (memory : μ) (history : List (Operation σ)) : Versions σ μ κ :=
  ops.run ⟨memory, [], []⟩ history

theorem after_append (ops : Queues σ μ κ) (memory : μ) (history later : List (Operation σ)) :
    ops.after memory (history ++ later) = ops.run (ops.after memory history) later := List.foldl_append

theorem perform_queues (ops : Queues σ μ κ) (vs : Versions σ μ κ) (op : Operation σ) :
    vs.queues <+: (ops.perform vs op).queues := by
  cases op with
  | pair first second => exact List.prefix_append _ _
  | pushFront i x => exact Versions.at?_queues i fun _ => List.prefix_append _ _
  | pushBack i x => exact Versions.at?_queues i fun _ => List.prefix_append _ _
  | popFront i => exact Versions.at?_queues i fun _ => vs.pop_queues _

theorem run_queues (ops : Queues σ μ κ) (vs : Versions σ μ κ) (history : List (Operation σ)) :
    vs.queues <+: (ops.run vs history).queues := by
  induction history generalizing vs with
  | nil => exact List.prefix_rfl
  | cons op rest ih => exact (ops.perform_queues vs op).trans (ih _)

end Queues

section Representing

def Keeps (R : μ → κ → ρ → Prop) (m m' : μ) : Prop := ∀ q l, R m q l → R m' q l

theorem Keeps.refl (R : μ → κ → ρ → Prop) (m : μ) : Keeps R m m := fun _ _ hq => hq

theorem Keeps.trans {R : μ → κ → ρ → Prop} {m₁ m₂ m₃ : μ} (h : Keeps R m₁ m₂) (h' : Keeps R m₂ m₃) :
    Keeps R m₁ m₃ := fun q l hq => h' q l (h q l hq)

structure Made (Sound : μ → Prop) (R : μ → κ → ρ → Prop) (m : μ) (made : κ × μ) (l : ρ) : Prop where
  sound : Sound made.2
  keeps : Keeps R m made.2
  right : R made.2 made.1 l

inductive Popped (Sound : μ → Prop) (R : μ → κ → ρ → Prop) (m : μ) :
    Option (σ × κ) × μ → Option (σ × ρ) → Prop
  | nothing {m' : μ} (hs : Sound m') (hk : Keeps R m m') : Popped Sound R m (none, m') none
  | first {m' : μ} {q : κ} {l : ρ} (x : σ) (h : Made Sound R m (q, m') l) :
      Popped Sound R m (some (x, q), m') (some (x, l))

/-- Every operation on `κ` makes what the one on `ρ` makes, which needs no memory, and takes nothing from what
the memory represents. -/
structure Represents (ops : Queues σ μ κ) (plain : Queues σ Unit ρ) (Sound : μ → Prop)
    (R : μ → κ → ρ → Prop) : Prop where
  pair : ∀ {m}, Sound m → ∀ first second,
    Made Sound R m (ops.pair first second m) (plain.pair first second ()).1
  pushFront : ∀ {m q l}, Sound m → R m q l → ∀ x,
    Made Sound R m (ops.pushFront q x m) (plain.pushFront l x ()).1
  pushBack : ∀ {m q l}, Sound m → R m q l → ∀ x,
    Made Sound R m (ops.pushBack q x m) (plain.pushBack l x ()).1
  popFront : ∀ {m q l}, Sound m → R m q l → Popped Sound R m (ops.popFront q m) (plain.popFront l ()).1

structure Alike (Sound : μ → Prop) (R : μ → κ → ρ → Prop) (vs : Versions σ μ κ)
    (vs' : Versions σ Unit ρ) : Prop where
  sound : Sound vs.memory
  queues : List.Forall₂ (R vs.memory) vs.queues vs'.queues
  popped : vs.popped = vs'.popped

variable {Sound : μ → Prop} {R : μ → κ → ρ → Prop} {m : μ} {vs : Versions σ μ κ}
  {vs' : Versions σ Unit ρ} {ops : Queues σ μ κ} {plain : Queues σ Unit ρ}

def Onward (Sound : μ → Prop) (R : μ → κ → ρ → Prop) (m : μ) (vs : Versions σ μ κ)
    (vs' : Versions σ Unit ρ) : Prop := Alike Sound R vs vs' ∧ Keeps R m vs.memory

theorem Alike.push (h : Alike Sound R vs vs') {made : κ × μ} {made' : ρ × Unit}
    (hmade : Made Sound R vs.memory made made'.1) :
    Onward Sound R vs.memory (vs.push made) (vs'.push made') :=
  ⟨⟨hmade.sound, List.rel_append (h.queues.imp hmade.keeps) (.cons hmade.right .nil), h.popped⟩, hmade.keeps⟩

theorem Alike.pop (h : Alike Sound R vs vs') {popped : Option (σ × κ) × μ}
    {popped' : Option (σ × ρ) × Unit} (hpop : Popped Sound R vs.memory popped popped'.1) :
    Onward Sound R vs.memory (vs.pop popped) (vs'.pop popped') := by
  obtain ⟨answer, m'⟩ := popped'
  cases hpop with
  | nothing hs hk => exact ⟨⟨hs, h.queues.imp hk, by rw [Versions.pop, Versions.pop, h.popped]⟩, hk⟩
  | first x hmade =>
    exact ⟨⟨hmade.sound, List.rel_append (h.queues.imp hmade.keeps) (.cons hmade.right .nil),
      by rw [Versions.pop, Versions.pop, h.popped]⟩, hmade.keeps⟩

theorem Alike.at? (h : Alike Sound R vs vs') (i : ℕ) {f : κ → Versions σ μ κ} {g : ρ → Versions σ Unit ρ}
    (hf : ∀ q l, R vs.memory q l → Onward Sound R vs.memory (f q) (g l)) :
    Onward Sound R vs.memory (vs.at? i f) (vs'.at? i g) := by
  have hlength := h.queues.length_eq
  unfold Versions.at?
  by_cases hi : i < vs.queues.length
  · have hi' : i < vs'.queues.length := hlength ▸ hi
    rw [List.getElem?_eq_getElem hi, List.getElem?_eq_getElem hi']
    exact hf _ _ (h.queues.get hi hi')
  · rw [List.getElem?_eq_none (Nat.not_lt.1 hi), List.getElem?_eq_none (hlength ▸ Nat.not_lt.1 hi)]
    exact ⟨h, .refl R _⟩

theorem Represents.perform (h : Represents ops plain Sound R) (ha : Alike Sound R vs vs')
    (op : Operation σ) : Onward Sound R vs.memory (ops.perform vs op) (plain.perform vs' op) := by
  cases op with
  | pair first second => exact ha.push (h.pair ha.sound first second)
  | pushFront i x => exact ha.at? i fun q l hq => ha.push (h.pushFront ha.sound hq x)
  | pushBack i x => exact ha.at? i fun q l hq => ha.push (h.pushBack ha.sound hq x)
  | popFront i => exact ha.at? i fun q l hq => ha.pop (h.popFront ha.sound hq)

theorem Represents.run (h : Represents ops plain Sound R) (ha : Alike Sound R vs vs')
    (history : List (Operation σ)) :
    Onward Sound R vs.memory (ops.run vs history) (plain.run vs' history) := by
  induction history generalizing vs vs' with
  | nil => exact ⟨ha, .refl R _⟩
  | cons op rest ih =>
    obtain ⟨hstep, hkeeps⟩ := h.perform ha op
    obtain ⟨hrest, hkeeps'⟩ := ih hstep
    exact ⟨hrest, hkeeps.trans hkeeps'⟩

theorem Represents.after (h : Represents ops plain Sound R) (hm : Sound m) (history : List (Operation σ)) :
    Alike Sound R (ops.after m history) (plain.after () history) := by
  have hstart : Alike Sound R (⟨m, [], []⟩ : Versions σ μ κ) (⟨(), [], []⟩ : Versions σ Unit ρ) :=
    ⟨hm, .nil, rfl⟩
  exact (h.run hstart history).1

end Representing

section Stacks

def listed : Queues σ Unit (List σ) where
  pair first second _ := ([first, second], ())
  pushFront l x _ := (x :: l, ())
  pushBack l x _ := (l ++ [x], ())
  popFront
    | [], _ => (none, ())
    | x :: rest, _ => (some (x, rest), ())

def stacked : Queues σ Unit (Segments σ) where
  pair first second _ := (pair first second, ())
  pushFront s x _ := (s.pushFront x, ())
  pushBack s x _ := (s.pushBack x, ())
  popFront s _ := (s.popFront?, ())

theorem sized_pair (first second : σ) : (pair first second).Sized :=
  ⟨(Stack.sized_empty.push second).push first, Stack.sized_empty⟩

theorem Sized.popFront {s rest : Segments σ} {x : σ} (h : s.Sized) (hp : s.popFront? = some (x, rest)) :
    rest.Sized := by
  unfold popFront? at hp
  split at hp
  · next y front hfront =>
    obtain ⟨-, rfl⟩ := Prod.mk.inj (Option.some.inj hp)
    exact ⟨h.1.uncons hfront, h.2⟩
  · split at hp
    · next y front hback =>
      obtain ⟨-, rfl⟩ := Prod.mk.inj (Option.some.inj hp)
      exact ⟨h.2.reversed.uncons hback, Stack.sized_empty⟩
    · cases hp

def Contains (_ : Unit) (s : Segments σ) (l : List σ) : Prop := s.Sized ∧ s.contents = l

theorem stacked_represents : Represents (σ := σ) stacked listed (fun _ => True) Contains where
  pair _ first second := ⟨trivial, .refl _ _, sized_pair first second, rfl⟩
  pushFront := by
    rintro m s l - ⟨hs, rfl⟩ x
    exact ⟨trivial, .refl _ _, ⟨hs.1.push x, hs.2⟩, contents_pushFront s x⟩
  pushBack := by
    rintro m s l - ⟨hs, rfl⟩ x
    exact ⟨trivial, .refl _ _, ⟨hs.1, hs.2.push x⟩, contents_pushBack s x⟩
  popFront := by
    rintro m s l - ⟨hs, rfl⟩
    cases hp : s.popFront? with
    | none =>
      have hnil : s.contents = [] := (popFront?_eq_none s).1 hp
      simp only [stacked, listed, hp, hnil]
      exact .nothing trivial (.refl _ _)
    | some p =>
      obtain ⟨x, rest⟩ := p
      have hcons : s.contents = x :: rest.contents := contents_popFront hp
      simp only [stacked, listed, hp, hcons]
      exact .first x ⟨trivial, .refl _ _, hs.popFront hp, rfl⟩

theorem stacked_after (history : List (Operation σ)) :
    Alike (fun _ => True) Contains (stacked.after () history) (listed.after () history) :=
  stacked_represents.after (m := ()) trivial history

theorem stacked_sized (history : List (Operation σ)) : ∀ s ∈ (stacked.after () history).queues, s.Sized :=
  ((List.forall₂_and_left _ _).1 (stacked_after history).queues).1

theorem stacked_contents (history : List (Operation σ)) :
    (stacked.after () history).queues.map contents = (listed.after () history).queues := by
  have hqueues := ((List.forall₂_and_left _ _).1 (stacked_after history).queues).2
  rwa [← List.forall₂_eq_eq_eq, List.forall₂_map_left_iff]

end Stacks

end MemoSequence.Segments
