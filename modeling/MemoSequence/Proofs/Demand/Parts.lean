import MemoSequence.Proofs.Arrival
set_option autoImplicit false

namespace MemoSequence

inductive Part (α : Type) where
  | item (x : α)
  | numbered (index : ℕ) (limit : Option ℕ) (source : Source α)
  | cell (id : ℕ)

namespace Node
variable {α : Type}

mutual

def parts : Node α → List (Part α)
  | .empty => []
  | .one head tail => .item head :: parts tail
  | .composite ⟨⟨front, _⟩, ⟨back, _⟩⟩ => (partsEach front ++ (partsEach back).reverse).flatten
  | .generated index limit source => [.numbered index limit source]
  | .lazy id => [.cell id]

def partsEach : List (Node α) → List (List (Part α))
  | [] => []
  | s :: rest => parts s :: partsEach rest

end

theorem partsEach_eq (nodes : List (Node α)) : partsEach nodes = nodes.map parts := by
  induction nodes with
  | nil => rfl
  | cons s rest ih => rw [partsEach, ih, List.map_cons]

@[simp] theorem parts_empty : parts (.empty : Node α) = [] := by rw [parts]

@[simp] theorem parts_one (x : α) (tail : Node α) : parts (.one x tail) = .item x :: parts tail := by
  rw [parts]

@[simp] theorem parts_generated (index : ℕ) (limit : Option ℕ) (source : Source α) :
    parts (.generated index limit source) = [.numbered index limit source] := by rw [parts]

@[simp] theorem parts_lazy (id : ℕ) : parts (.lazy id : Node α) = [.cell id] := by rw [parts]

@[simp] theorem parts_composite (pending : Segments (Node α)) :
    parts (.composite pending) = pending.contents.flatMap parts := by
  obtain ⟨⟨front, _⟩, ⟨back, _⟩⟩ := pending
  rw [parts, partsEach_eq, partsEach_eq, Segments.contents, List.flatMap_def, List.map_append,
    List.map_reverse]

@[simp] theorem parts_ofSegments (pending : Segments (Node α)) :
    parts (ofSegments pending) = pending.contents.flatMap parts := by
  unfold ofSegments
  split
  · next h => rw [(Segments.isEmpty_iff pending).1 h, parts_empty, List.flatMap_nil]
  · exact parts_composite pending

@[simp] theorem parts_concat (a b : Node α) : parts (a.concat b) = parts a ++ parts b := by
  unfold concat
  split <;> simp [Segments.pair, Segments.contents, Stack.push, Stack.empty, Segments.pushBack,
    Segments.pushFront, List.flatMap_append]

def upcoming (current : Node α) (opened : List (Segments (Node α))) : List (Part α) :=
  parts current ++ (pendingParts opened).flatMap parts

theorem upcoming_nil (current : Node α) : upcoming current [] = parts current := List.append_nil _

theorem parts_reattach (tail : Node α) (opened : List (Segments (Node α))) :
    parts (reattach tail opened) = upcoming tail opened := by
  induction opened generalizing tail with
  | nil => exact (List.append_nil _).symm
  | cons pending outer ih =>
    have hrest := ih (tail.concat (ofSegments pending))
    rw [upcoming, parts_concat, parts_ofSegments, List.append_assoc, ← List.flatMap_append] at hrest
    exact hrest

theorem upcoming_composite (pending : Segments (Node α)) (opened : List (Segments (Node α))) :
    upcoming .empty (pending :: opened.dropWhile Segments.isEmpty) =
      upcoming (.composite pending) opened := by
  have hdrop : pendingParts (pending :: opened.dropWhile Segments.isEmpty) =
      pending.contents ++ pendingParts opened := by
    rw [← pendingParts_dropWhile opened]
    rfl
  rw [upcoming, upcoming, hdrop, parts_empty, List.nil_append, parts_composite, List.flatMap_append]

/-- What the next turn finds something at: an element, a source or a deferred part. -/
inductive Facing : Node α → Prop
  | one (x : α) (tail : Node α) : Facing (.one x tail)
  | generated (index : ℕ) (limit : Option ℕ) (source : Source α) : Facing (.generated index limit source)
  | lazy (id : ℕ) : Facing (.lazy id)

namespace Facing
variable {current : Node α} {opened : List (Segments (Node α))} {A : List (Part α)} (h : Facing current)
include h

theorem upcoming_ne_nil : upcoming current opened ≠ [] := by
  cases h <;> simp [upcoming]

theorem item_first {x : α} (hparts : upcoming current opened = .item x :: A) :
    ∃ tail, current = .one x tail ∧ upcoming tail opened = A := by
  cases h with
  | one y tail =>
    rw [upcoming, parts_one] at hparts
    cases hparts
    exact ⟨tail, rfl, rfl⟩
  | generated index limit source =>
    rw [upcoming, parts_generated] at hparts
    cases hparts
  | lazy id =>
    rw [upcoming, parts_lazy] at hparts
    cases hparts

theorem numbered_first {index : ℕ} {limit : Option ℕ} {source : Source α}
    (hparts : upcoming current opened = .numbered index limit source :: A) :
    current = .generated index limit source ∧ (pendingParts opened).flatMap parts = A := by
  cases h with
  | one y tail =>
    rw [upcoming, parts_one] at hparts
    cases hparts
  | generated index limit source =>
    rw [upcoming, parts_generated] at hparts
    cases hparts
    exact ⟨rfl, rfl⟩
  | lazy id =>
    rw [upcoming, parts_lazy] at hparts
    cases hparts

theorem cell_first {id : ℕ} (hparts : upcoming current opened = .cell id :: A) :
    current = .lazy id ∧ (pendingParts opened).flatMap parts = A := by
  cases h with
  | one y tail =>
    rw [upcoming, parts_one] at hparts
    cases hparts
  | generated index limit source =>
    rw [upcoming, parts_generated] at hparts
    cases hparts
  | lazy id =>
    rw [upcoming, parts_lazy] at hparts
    cases hparts
    exact ⟨rfl, rfl⟩

end Facing

end Node

variable {ι : Type} [Basis ι] {k : Kind ι}

namespace Sequence
open Node (upcoming pendingParts Facing)

def Reaches (current : Sequence k) (opened : List (Segments (Sequence k))) (current' : Sequence k)
    (opened' : List (Segments (Sequence k))) : Prop :=
  ∀ {st st' : Store ι} {answer : Option (El k × Sequence k)},
    Gives (fun fuel => visit fuel current' opened') st answer st' →
      Gives (fun fuel => visit fuel current opened) st answer st'

theorem gives_turn {current : Sequence k} {opened : List (Segments (Sequence k))} {turn : Turn k}
    {st st₁ st' : Store ι} {answer : Option (El k × Sequence k)}
    (hturn : ∀ force, Sequence.turn force current opened st = .ok (turn, st₁))
    (h : Gives (fun fuel => match turn with
      | .found answer => pure answer
      | .onward current opened => visit fuel current opened) st₁ answer st') :
    Gives (fun fuel => visit fuel current opened) st answer st' := by
  refine Gives.succ ?_
  obtain ⟨N, hN⟩ := h
  refine ⟨N, fun fuel hfuel => Run.bind_eq_ok.2 ⟨turn, st₁, hturn _, ?_⟩⟩
  cases turn with
  | found found => exact hN fuel hfuel
  | onward current' opened' => exact hN fuel hfuel

def Opens (current : Sequence k) (opened : List (Segments (Sequence k))) : Prop :=
  (upcoming current opened = [] ∧
    ∀ st : Store ι, Gives (fun fuel => visit fuel current opened) st none st) ∨
  ∃ current' opened', Facing current' ∧ upcoming current' opened' = upcoming current opened ∧
    Reaches current opened current' opened'

theorem opens_of_pending {current : Sequence k} {opened pending : List (Segments (Sequence k))}
    (hturn : ∀ (force : ℕ → Run ι (Sequence k)) (st : Store ι), Sequence.turn force current opened st =
      .ok (.ofPending (Node.popPending pending), st))
    (hparts : upcoming current opened = upcoming .empty pending)
    (h : ∀ part opened', pendingParts pending = part :: pendingParts opened' → Opens part opened') :
    Opens current opened := by
  cases hp : Node.popPending pending with
  | none =>
    have hempty := Node.pendingParts_of_popPending_none hp
    refine .inl ⟨?_, fun st => gives_turn (fun force => hturn force st) ?_⟩
    · rw [hparts, upcoming, Node.parts_empty, hempty]
      rfl
    · rw [hp]
      exact gives_of_eq rfl
  | some next =>
    obtain ⟨part, opened'⟩ := next
    have hnext := Node.pendingParts_of_popPending hp
    have hsame : upcoming part opened' = upcoming current opened := by
      rw [hparts, upcoming, upcoming, Node.parts_empty, hnext, List.nil_append, List.flatMap_cons]
    have hstep : Reaches current opened part opened' := fun {st _ _} hgives =>
      gives_turn (fun force => hturn force st) (by rw [hp]; exact hgives)
    obtain ⟨hnil, hgives⟩ | ⟨current', opened'', hfacing, hupcoming, hreaches⟩ := h part opened' hnext
    · exact .inl ⟨hsame ▸ hnil, fun st => hstep (hgives st)⟩
    · exact .inr ⟨current', opened'', hfacing, hupcoming.trans hsame, fun hgives =>
        hstep (hreaches hgives)⟩

theorem opens (current : Sequence k) (opened : List (Segments (Sequence k))) : Opens current opened := by
  induction hn : Node.nodesOf (current :: pendingParts opened) using Nat.strong_induction_on
    generalizing current opened with
  | h n ih =>
    subst hn
    cases current with
    | one x tail => exact .inr ⟨_, _, .one x tail, rfl, id⟩
    | generated index limit source => exact .inr ⟨_, _, .generated index limit source, rfl, id⟩
    | lazy id => exact .inr ⟨_, _, .lazy id, rfl, fun h => h⟩
    | empty =>
      refine opens_of_pending (fun _ _ => rfl) rfl fun part opened' hnext => ih _ ?_ part opened' rfl
      rw [hnext]
      simp only [Node.nodesOf, Node.nodes]
      omega
    | composite parts =>
      refine opens_of_pending (fun _ _ => rfl) (Node.upcoming_composite parts opened).symm
        fun part opened' hnext => ih _ ?_ part opened' rfl
      have hlt := nodesOf_contents_lt parts
      have hall := congrArg Node.nodesOf hnext
      rw [pendingParts_composite, Node.nodesOf_append] at hall
      simp only [Node.nodesOf] at hall ⊢
      omega

end Sequence

end MemoSequence
