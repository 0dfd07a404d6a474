import MemoSequence.Proofs.Trail
import MemoSequence.Node
set_option autoImplicit false

namespace MemoSequence
open Stream' (WSeq)
open Stream'.WSeq (think)

namespace Source
variable {α β : Type}

def Below (limit : Option Nat) (index : Nat) : Prop := ∀ l, limit = some l → index < l

instance (limit : Option Nat) (index : Nat) : Decidable (Below limit index) :=
  match limit with
  | none => isTrue (by simp [Below])
  | some l => decidable_of_iff (index < l) (by simp [Below])

@[simp] theorem below_none (index : Nat) : Below none index := by simp [Below]

@[simp] theorem below_some (l index : Nat) : Below (some l) index ↔ index < l := by simp [Below]

def trail (item : α → β) (source : Source α) (limit : Option Nat) (index : Nat) : Trail β :=
  unfolded
    (fun i => if Below limit i then
        match source.at? i with
        | some x => some (some (item x, if Below limit (i + 1) then "Generated" else "Empty"), i + 1)
        | none => some (none, i)
      else none)
    index

theorem trail_of_not_below {item : α → β} {source : Source α} {limit : Option Nat} {index : Nat}
    (h : ¬ Below limit index) : source.trail item limit index = .nil :=
  unfolded_nil (if_neg h)

theorem trail_of_below {item : α → β} {source : Source α} {limit : Option Nat} {index : Nat}
    {x : α} (h : Below limit index) (hx : source.at? index = some x) :
    source.trail item limit index =
      .cons (item x, if Below limit (index + 1) then "Generated" else "Empty")
        (source.trail item limit (index + 1)) :=
  unfolded_cons (by rw [if_pos h, hx])

theorem trail_congr {f g : α → β} {source : Source α} {limit : Option Nat}
    (h : ∀ i x, Below limit i → source.at? i = some x → f x = g x) (index : Nat) :
    source.trail f limit index = source.trail g limit index := by
  unfold trail
  congr 1
  funext i
  by_cases hi : Below limit i
  · simp only [hi, if_true]
    cases hx : source.at? i with
    | none => rfl
    | some x => simp only [h i x hi hx]
  · simp only [hi, if_false]

theorem trail_rule {item : α → β} {f : Fn Nat α} {g : Nat → β} (h : ∀ i, item (f.apply i) = g i)
    (index : Nat) :
    (Source.rule f).trail item none index = (Source.rule (.silent g)).trail id none index := by
  unfold trail
  simp only [at?, h, Fn.silent, id_eq]

end Source

namespace Node
variable {α β : Type}

theorem form_eq_empty (s : Node α) : s.form = "Empty" ↔ s = .empty := by
  cases s <;> simp [form]

theorem form_ofSegments (parts : Segments (Node α)) :
    (ofSegments parts).form = if parts.contents = [] then "Empty" else "Composite" := by
  unfold ofSegments
  by_cases h : parts.contents = []
  · rw [if_pos h, if_pos ((Segments.isEmpty_iff parts).2 h)]; rfl
  · rw [if_neg h, if_neg (mt (Segments.isEmpty_iff parts).1 h)]; rfl

section Trail
variable (cell : Nat → Trail β) (item : α → β)

mutual

/-- The trail of a node, where cell `id` stands for `cell id`. -/
def trail : Node α → Trail β
  | .empty => .nil
  | .one head tail => .cons (item head, tail.form) (trail tail)
  | .composite ⟨⟨front, _⟩, ⟨back, _⟩⟩ => .chained (trails front ++ (trails back).reverse)
  | .generated index limit source => source.trail item limit index
  | .lazy id => cell id

def trails : List (Node α) → List (Trail β)
  | [] => []
  | s :: rest => trail s :: trails rest

end

theorem trails_eq (parts : List (Node α)) : trails cell item parts = parts.map (trail cell item) := by
  induction parts with
  | nil => rfl
  | cons s rest ih => rw [trails, ih, List.map_cons]

theorem trail_composite (parts : Segments (Node α)) :
    trail cell item (.composite parts) = .chained (parts.contents.map (trail cell item)) := by
  obtain ⟨⟨front, _⟩, ⟨back, _⟩⟩ := parts
  rw [trail, trails_eq, trails_eq, Segments.contents, List.map_append, List.map_reverse]

theorem trail_ofSegments (parts : Segments (Node α)) :
    trail cell item (ofSegments parts) = .chained (parts.contents.map (trail cell item)) := by
  unfold ofSegments
  split
  · next h => rw [(Segments.isEmpty_iff parts).1 h]; rfl
  · exact trail_composite cell item parts

theorem trail_following (index : Nat) (limit : Option Nat) (source : Source α) :
    trail cell item (following index limit source) = source.trail item limit (index + 1) := by
  unfold following
  split
  · split
    · next h => exact (Source.trail_of_not_below (by simpa using h)).symm
    · rfl
  · rfl

end Trail

theorem form_following (index : Nat) (limit : Option Nat) (source : Source α) :
    (following index limit source).form =
      if Source.Below limit (index + 1) then "Generated" else "Empty" := by
  unfold following
  split
  · next l =>
    by_cases h : l ≤ index + 1
    · simp [h, form]
    · simp [h, form, Nat.lt_of_not_le h]
  · simp [form]

section Formed

/-- Nodes that could have been made, when the deferred parts that exist are those of `cell`, and the
elements those of `item`. -/
inductive Formed (cell : Nat → Prop) (item : α → Prop) : Node α → Prop
  | empty : Formed cell item .empty
  | one {head : α} {tail : Node α} (hh : item head) (ht : Formed cell item tail) :
      Formed cell item (.one head tail)
  | composite {parts : Segments (Node α)} (hc : parts.contents ≠ [])
      (he : ∀ s ∈ parts.contents, s ≠ .empty) (hp : ∀ s ∈ parts.contents, Formed cell item s) :
      Formed cell item (.composite parts)
  | generated {index : Nat} {limit : Option Nat} {source : Source α}
      (hb : Source.Below limit index)
      (hs : ∀ i, Source.Below limit i → ∃ x, source.at? i = some x ∧ item x) :
      Formed cell item (.generated index limit source)
  | lazy {id : Nat} (hc : cell id) : Formed cell item (.lazy id)

def Queued (cell : Nat → Prop) (item : α → Prop) (parts : Segments (Node α)) : Prop :=
  ∀ s ∈ parts.contents, s ≠ .empty ∧ Formed cell item s

variable {cell : Nat → Prop} {item : α → Prop}

theorem Formed.mono {cell' : Nat → Prop} {item' : α → Prop} {s : Node α}
    (h : Formed cell item s) (hc : ∀ id, cell id → cell' id) (hi : ∀ x, item x → item' x) :
    Formed cell' item' s := by
  induction h with
  | empty => exact .empty
  | one hh _ ih => exact .one (hi _ hh) ih
  | composite hne he _ ih => exact .composite hne he ih
  | generated hb hs =>
    refine .generated hb fun i hl => ?_
    obtain ⟨x, hx, hxi⟩ := hs i hl
    exact ⟨x, hx, hi x hxi⟩
  | lazy h => exact .lazy (hc _ h)

theorem Formed.trail_congr {t t' : Nat → Trail β} {f f' : α → β} {s : Node α}
    (h : Formed cell item s) (ht : ∀ id, cell id → t id = t' id)
    (hf : ∀ x, item x → f x = f' x) : trail t f s = trail t' f' s := by
  induction h with
  | empty => rfl
  | one hh _ ih => rw [trail, trail, hf _ hh, ih]
  | composite _ _ _ ih => rw [trail_composite, trail_composite, List.map_congr_left ih]
  | generated _ hs =>
    refine Source.trail_congr (fun i x hl hx => ?_) _
    obtain ⟨y, hy, hyi⟩ := hs i hl
    rw [hx] at hy
    exact (Option.some.inj hy) ▸ hf y hyi
  | lazy h => exact ht _ h

theorem formed_of_list {elements : List α} (h : ∀ x ∈ elements, item x) :
    Formed cell item (ofList elements) := by
  unfold ofList ofArray
  cases elements with
  | nil => exact .empty
  | cons x rest =>
    refine .generated (by simp) fun i hi => ?_
    have hl : i < (x :: rest).length := by simpa using hi
    exact ⟨(x :: rest)[i], by simp [Source.at?], h _ (List.getElem_mem hl)⟩

theorem formed_of_fn {f : Fn Nat α} (h : ∀ i, item (f.apply i)) : Formed cell item (ofFn f) :=
  .generated (Source.below_none 0) fun i _ => ⟨f.apply i, rfl, h i⟩

theorem formed_upTo {item : Nat → Prop} (limit : Option Nat) (h : ∀ i, item i) :
    Formed cell item (upTo limit) := by
  unfold upTo
  split
  · exact .empty
  · next hl =>
    refine .generated (fun l h => ?_) fun i _ => ⟨i, rfl, h i⟩
    rcases l with _ | l
    · exact absurd h hl
    · exact Nat.succ_pos l

theorem formed_ofSegments {parts : Segments (Node α)} (h : Queued cell item parts) :
    Formed cell item (ofSegments parts) := by
  unfold ofSegments
  split
  · exact .empty
  · next hn =>
    exact .composite (mt (Segments.isEmpty_iff parts).2 hn) (fun s hs => (h s hs).1)
      fun s hs => (h s hs).2

theorem Formed.queued {parts : Segments (Node α)} (h : Formed cell item (.composite parts)) :
    Queued cell item parts := by
  cases h with
  | composite _ he hp => exact fun s hs => ⟨he s hs, hp s hs⟩

theorem Formed.following {index : Nat} {limit : Option Nat} {source : Source α}
    (h : Formed cell item (.generated index limit source)) :
    Formed cell item (following index limit source) := by
  cases h with
  | generated _ hs =>
    unfold Node.following
    split
    · split
      · exact .empty
      · next hl => exact .generated (by simpa using hl) hs
    · exact .generated (Source.below_none _) hs

end Formed

section Concat
variable {cell : Nat → Prop} {item : α → Prop}

theorem concat_eq_composite {a b : Node α} (ha : a ≠ .empty) (hb : b ≠ .empty) :
    ∃ parts : Segments (Node α), a.concat b = .composite parts ∧
      (parts.contents = [a, b] ∨
        (∃ front, a = .composite front ∧ parts.contents = front.contents ++ [b]) ∨
        ∃ back, b = .composite back ∧ parts.contents = a :: back.contents) := by
  have made : ∀ parts : Segments (Node α), parts.contents ≠ [] →
      ofSegments parts = .composite parts := by
    intro parts h
    exact if_neg (mt (Segments.isEmpty_iff parts).1 h)
  unfold concat
  split
  · exact absurd rfl ha
  · exact absurd rfl hb
  · next front _ =>
    exact ⟨front.pushBack b, made _ (by simp), .inr (.inl ⟨front, rfl, by simp⟩)⟩
  · next back _ _ =>
    exact ⟨back.pushFront a, made _ (by simp), .inr (.inr ⟨back, rfl, by simp⟩)⟩
  · exact ⟨.pair a b, made _ (by simp), .inl (by simp)⟩

@[simp] theorem empty_concat (b : Node α) : concat .empty b = b := rfl

@[simp] theorem concat_empty (a : Node α) : a.concat .empty = a := by
  cases a <;> rfl

theorem form_concat (a b : Node α) :
    (a.concat b).form =
      if b.form = "Empty" then a.form else if a.form = "Empty" then b.form else "Composite" := by
  by_cases hb : b.form = "Empty"
  · rw [if_pos hb, (form_eq_empty b).1 hb, concat_empty]
  · rw [if_neg hb]
    by_cases ha : a.form = "Empty"
    · rw [if_pos ha, (form_eq_empty a).1 ha, empty_concat]
    · obtain ⟨parts, hp, -⟩ :=
        concat_eq_composite (mt (form_eq_empty a).2 ha) (mt (form_eq_empty b).2 hb)
      rw [if_neg ha, hp]
      rfl

theorem Formed.concat {a b : Node α} (ha : Formed cell item a) (hb : Formed cell item b) :
    Formed cell item (a.concat b) := by
  by_cases ea : a = .empty
  · rwa [ea, empty_concat]
  by_cases eb : b = .empty
  · rwa [eb, concat_empty]
  obtain ⟨parts, hp, hc⟩ := concat_eq_composite ea eb
  have hq : Queued cell item parts := by
    intro s hs
    obtain hc | ⟨front, rfl, hc⟩ | ⟨back, rfl, hc⟩ := hc
    · rw [hc, List.mem_cons, List.mem_singleton] at hs
      obtain rfl | rfl := hs
      · exact ⟨ea, ha⟩
      · exact ⟨eb, hb⟩
    · rw [hc, List.mem_append, List.mem_singleton] at hs
      obtain hs | rfl := hs
      · exact ha.queued s hs
      · exact ⟨eb, hb⟩
    · rw [hc, List.mem_cons] at hs
      obtain rfl | hs := hs
      · exact ⟨ea, ha⟩
      · exact hb.queued s hs
  rw [hp]
  refine .composite ?_ (fun s hs => (hq s hs).1) fun s hs => (hq s hs).2
  obtain hc | ⟨front, -, hc⟩ | ⟨back, -, hc⟩ := hc <;> simp [hc]

theorem trail_concat (t : Nat → Trail β) (f : α → β) (a : Node α) {b : Node α}
    (hb : Formed cell item b) (eb : b ≠ .empty) :
    trail t f (a.concat b) = .chained [trail t f a, trail t f b] := by
  by_cases ea : a = .empty
  · rw [ea, empty_concat, trail, Trail.chained_nil_cons, Trail.chained_singleton]
  obtain ⟨parts, hp, hc⟩ := concat_eq_composite ea eb
  rw [hp, trail_composite]
  obtain hc | ⟨front, rfl, hc⟩ | ⟨back, rfl, hc⟩ := hc
  · rw [hc]; rfl
  · rw [hc, List.map_append, trail_composite, Trail.chained_chained]; rfl
  · cases hb with
    | composite hne _ _ =>
      have hm : back.contents.map (trail t f) ≠ [] := by simpa using hne
      rw [hc, List.map_cons, trail_composite, Trail.chained_cons _ hm,
        Trail.chained_cons _ (List.cons_ne_nil _ _), Trail.chained_singleton]

theorem elements_concat (t : Nat → Trail β) (f : α → β) (a : Node α) {b : Node α}
    (hb : Formed cell item b) :
    (trail t f (a.concat b)).elements =
      (trail t f a).elements.append (trail t f b).elements := by
  by_cases eb : b = .empty
  · rw [eb, concat_empty, trail]
    exact (WSeq.append_nil _).symm
  · rw [trail_concat t f a hb eb, Trail.elements_chained, Trail.chained_singleton]

end Concat

section Pending

def pendingParts (opened : List (Segments (Node α))) : List (Node α) :=
  opened.flatMap Segments.contents

theorem pendingParts_of_popPending_none {opened : List (Segments (Node α))}
    (h : popPending opened = none) : pendingParts opened = [] := by
  induction opened with
  | nil => rfl
  | cons parts outer ih =>
    cases hp : parts.popFront? with
    | some p => simp [popPending, hp] at h
    | none =>
      have ho : popPending outer = none := by simpa [popPending, hp] using h
      simpa [pendingParts, (Segments.popFront?_eq_none parts).1 hp] using ih ho

theorem pendingParts_of_popPending {opened opened' : List (Segments (Node α))} {part : Node α}
    (h : popPending opened = some (part, opened')) :
    pendingParts opened = part :: pendingParts opened' := by
  induction opened with
  | nil => simp [popPending] at h
  | cons parts outer ih =>
    cases hp : parts.popFront? with
    | some p =>
      obtain ⟨x, rest⟩ := p
      simp only [popPending, hp, Option.some.injEq, Prod.mk.injEq] at h
      obtain ⟨rfl, rfl⟩ := h
      simp [pendingParts, Segments.contents_popFront hp]
    | none =>
      have ho : popPending outer = some (part, opened') := by simpa [popPending, hp] using h
      simpa [pendingParts, (Segments.popFront?_eq_none parts).1 hp] using ih ho

theorem pendingParts_dropWhile (opened : List (Segments (Node α))) :
    pendingParts (opened.dropWhile Segments.isEmpty) = pendingParts opened := by
  induction opened with
  | nil => rfl
  | cons parts outer ih =>
    cases h : parts.isEmpty with
    | false => simp [h]
    | true =>
      rw [List.dropWhile_cons, if_pos h, ih]
      simp [pendingParts, (Segments.isEmpty_iff parts).1 h]

/-- The trail of what is still to come: the current node, then the opened queues. -/
def ahead (t : Nat → Trail β) (f : α → β) (current : Node α)
    (opened : List (Segments (Node α))) : Trail β :=
  .chained (trail t f current :: (pendingParts opened).map (trail t f))

variable {cell : Nat → Prop} {item : α → Prop}

theorem queued_cons {parts : Segments (Node α)} {outer : List (Segments (Node α))} :
    (∀ s ∈ pendingParts (parts :: outer), s ≠ .empty ∧ Formed cell item s) ↔
      Queued cell item parts ∧ ∀ s ∈ pendingParts outer, s ≠ .empty ∧ Formed cell item s := by
  simp only [pendingParts, List.flatMap_cons, List.forall_mem_append, Queued]

theorem Formed.reattach {tail : Node α} {opened : List (Segments (Node α))}
    (ht : Formed cell item tail)
    (ho : ∀ s ∈ pendingParts opened, s ≠ .empty ∧ Formed cell item s) :
    Formed cell item (reattach tail opened) := by
  induction opened generalizing tail with
  | nil => exact ht
  | cons parts outer ih =>
    obtain ⟨hp, ho⟩ := queued_cons.1 ho
    exact ih (ht.concat (formed_ofSegments hp)) ho

/-- What is left after an element is the rest of the node and what the queues still hold. -/
theorem trail_reattach (t : Nat → Trail β) (f : α → β) (tail : Node α)
    {opened : List (Segments (Node α))}
    (ho : ∀ s ∈ pendingParts opened, s ≠ .empty ∧ Formed cell item s) :
    trail t f (reattach tail opened) = ahead t f tail opened := by
  induction opened generalizing tail with
  | nil => rfl
  | cons parts outer ih =>
    obtain ⟨hp, ho⟩ := queued_cons.1 ho
    have hs := ih (tail.concat (ofSegments parts)) ho
    simp only [Node.reattach, List.foldl_cons] at hs ⊢
    rw [hs]
    simp only [ahead, pendingParts, List.flatMap_cons, List.map_append]
    by_cases hc : parts.contents = []
    · have he : ofSegments parts = .empty := (form_eq_empty _).1 (by rw [form_ofSegments, if_pos hc])
      rw [he, concat_empty, hc]
      rfl
    · have he : ofSegments parts ≠ .empty := by
        rw [Ne, ← form_eq_empty, form_ofSegments, if_neg hc]
        decide
      have hm : parts.contents.map (trail t f) ≠ [] := by simpa using hc
      rw [trail_concat t f tail (formed_ofSegments hp) he, trail_ofSegments,
        Trail.chained_cons _ (List.cons_ne_nil _ _), Trail.chained_singleton,
        ← Trail.chained_cons _ hm, Trail.chained_chained, List.cons_append]

theorem form_reattach (tail : Node α) (opened : List (Segments (Node α))) :
    (reattach tail opened).form = if pendingParts opened = [] then tail.form else "Composite" := by
  induction opened generalizing tail with
  | nil => rfl
  | cons parts outer ih =>
    have hs := ih (tail.concat (ofSegments parts))
    simp only [Node.reattach, List.foldl_cons] at hs ⊢
    rw [hs, form_concat, form_ofSegments]
    simp only [pendingParts, List.flatMap_cons, List.append_eq_nil_iff]
    by_cases hc : parts.contents = []
    · simp [hc]
    · by_cases he : tail.form = "Empty" <;> simp [hc, he]

end Pending

end Node

end MemoSequence
