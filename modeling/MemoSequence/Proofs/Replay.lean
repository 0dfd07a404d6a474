import MemoSequence.Proofs.Moments
set_option autoImplicit false

/-!
# Replays

What has been extracted from a sequence once can be read off the kept results afterwards: the turns of the
extractions are taken again, and no cell is forced. `Comes` says how far one gets in this way. A request
reaches a deferred part if one comes to it from the asked sequence without an element on the way; a sequence
has been asked for more than some elements if a request has reached the deferred part that comes after them.
-/
namespace MemoSequence

namespace Node
variable {α : Type} {parts : Segments (Node α)} {opened : List (Segments (Node α))} {next : Node α}

theorem ofSegments_of_nil (h : parts.contents = []) : ofSegments parts = .empty :=
  if_pos ((Segments.isEmpty_iff parts).2 h)

theorem ofSegments_of_cons {rest : List (Node α)} (h : parts.contents = next :: rest) :
    ofSegments parts = .composite parts := by
  refine if_neg fun hempty => ?_
  rw [(Segments.isEmpty_iff parts).1 hempty] at h
  cases h

theorem reattach_of_nil (h : pendingParts opened = []) (tail : Node α) : reattach tail opened = tail := by
  induction opened with
  | nil => rfl
  | cons parts outer ih =>
    obtain ⟨hparts, houter⟩ := List.append_eq_nil_iff.1 h
    simp only [reattach, List.foldl_cons, ofSegments_of_nil hparts, concat_empty]
    exact ih houter

theorem exists_reattach (tail : Node α) (h : pendingParts opened = [next])
    (htail : ∀ parts, tail ≠ .composite parts) :
    ∃ parts, reattach tail opened = .composite parts ∧
      parts.contents = if tail.isEmpty then [next] else [tail, next] := by
  induction opened with
  | nil => cases h
  | cons parts outer ih =>
    change parts.contents ++ pendingParts outer = [next] at h
    cases hparts : parts.contents with
    | nil =>
      rw [hparts] at h
      simp only [reattach, List.foldl_cons, ofSegments_of_nil hparts, concat_empty]
      exact ih h
    | cons part rest =>
      rw [hparts] at h
      obtain ⟨rfl, hrest⟩ := List.cons.inj h
      obtain ⟨rfl, houter⟩ := List.append_eq_nil_iff.1 hrest
      have hre : reattach tail (parts :: outer) = tail.concat (.composite parts) := by
        rw [← ofSegments_of_cons hparts]
        exact reattach_of_nil houter _
      rw [hre]
      have hpush := Segments.contents_pushFront parts tail
      rw [hparts] at hpush
      cases tail with
      | empty => exact ⟨parts, rfl, hparts⟩
      | composite parts => exact absurd rfl (htail parts)
      | one head rest => exact ⟨_, ofSegments_of_cons hpush, hpush⟩
      | generated index limit source => exact ⟨_, ofSegments_of_cons hpush, hpush⟩
      | lazy cell => exact ⟨_, ofSegments_of_cons hpush, hpush⟩

inductive Holds : Node α → List α → Prop
  | single (x : α) : Holds (.single x) [x]
  | ofList (elements : List α) : Holds (.ofList elements) elements

end Node

variable {ι : Type} [Basis ι] {k : Kind ι}

/-- The kept result of a cell, and no other one. -/
def Run.recall (k : Kind ι) (id : Nat) : Run ι (Sequence k) := fun st =>
  match st.peek? k id with
  | some v => .ok (v, st)
  | none => .error .dangling

theorem Run.recall_eq_ok {st st' : Store ι} {id : Nat} {v : Sequence k} :
    Run.recall k id st = .ok (v, st') ↔ st.peek? k id = some v ∧ st = st' := by
  unfold Run.recall
  cases st.peek? k id <;> simp

namespace Store
variable {st st' st₁ : Store ι} {s current t : Sequence k} {opened : List (Segments (Sequence k))}
  {ys : List (El k)} {x : El k} {asked : List (Request ι)}

/-- From `s` on, by kept results, first the elements `ys` are found; then comes the visit of `current` with
the opened queues. -/
inductive Comes (st : Store ι) (s : Sequence k) :
    List (El k) → Sequence k → List (Segments (Sequence k)) → Prop
  | start : Comes st s [] s []
  | onward {ys : List (El k)} {current current' : Sequence k}
      {opened opened' : List (Segments (Sequence k))} {st' : Store ι}
      (h : Comes st s ys current opened)
      (ht : Sequence.turn (Run.recall k) current opened st = .ok (.onward current' opened', st')) :
      Comes st s ys current' opened'
  | found {ys : List (El k)} {current : Sequence k} {opened : List (Segments (Sequence k))} {x : El k}
      {tail : Sequence k} {st' : Store ι} (h : Comes st s ys current opened)
      (ht : Sequence.turn (Run.recall k) current opened st = .ok (.found (some (x, tail)), st')) :
      Comes st s (ys ++ [x]) tail []

/-- To answer one of the requests, `current` has to be visited with the opened queues. -/
def Reached (st : Store ι) (asked : List (Request ι)) (current : Sequence k)
    (opened : List (Segments (Sequence k))) : Prop :=
  ∃ r : Sequence k, ⟨k, r⟩ ∈ asked ∧ st.Comes r [] current opened

/-- One of the requests is for more of `s` than the elements `ys`: it has reached the deferred part behind
them. -/
def Asked (st : Store ι) (asked : List (Request ι)) (s : Sequence k) (ys : List (El k)) : Prop :=
  ∃ id opened opened', st.Comes s ys (.lazy id) opened ∧
    st.Reached asked (.lazy id : Sequence k) opened'

theorem turn_recalled {force : Nat → Run ι (Sequence k)} {turn : Turn k}
    (h : Sequence.turn force current opened st = .ok (turn, st'))
    (hforce : ∀ id v, force id st = .ok (v, st') → st₁.peek? k id = some v) :
    ∃ st₁', Sequence.turn (Run.recall k) current opened st₁ = .ok (turn, st₁') := by
  cases current with
  | empty =>
    obtain ⟨rfl, -⟩ := Run.pure_eq_ok.1 h
    exact ⟨st₁, rfl⟩
  | one head tail =>
    obtain ⟨rfl, -⟩ := Run.pure_eq_ok.1 h
    exact ⟨st₁, rfl⟩
  | composite parts =>
    obtain ⟨rfl, -⟩ := Run.pure_eq_ok.1 h
    exact ⟨st₁, rfl⟩
  | generated index limit source =>
    cases hx : source.at? index with
    | none =>
      simp only [Sequence.turn, hx] at h
      cases h
    | some x =>
      rw [turn_generated hx] at h
      obtain ⟨rfl, -⟩ := Prod.mk.inj (Except.ok.inj h)
      exact ⟨_, turn_generated hx _ _ st₁⟩
  | lazy id =>
    obtain ⟨v, hv, rfl⟩ := Run.map_eq_ok.1 h
    exact ⟨st₁, Run.map_eq_ok.2 ⟨v, Run.recall_eq_ok.2 ⟨hforce id v hv, rfl⟩, rfl⟩⟩

theorem Comes.advances (h : st.Comes s ys current opened) (hst : st.Advances st₁) :
    st₁.Comes s ys current opened := by
  have again : ∀ {current : Sequence k} {opened turn st'},
      Sequence.turn (Run.recall k) current opened st = .ok (turn, st') →
      ∃ st₁', Sequence.turn (Run.recall k) current opened st₁ = .ok (turn, st₁') :=
    fun ht => turn_recalled ht fun _ _ hv => hst.peek? (Run.recall_eq_ok.1 hv).1
  induction h with
  | start => exact .start
  | onward _ ht ih =>
    obtain ⟨st₁', ht'⟩ := again ht
    exact ih.onward ht'
  | found _ ht ih =>
    obtain ⟨st₁', ht'⟩ := again ht
    exact ih.found ht'

theorem Reached.advances (h : st.Reached asked current opened) (hst : st.Advances st₁) :
    st₁.Reached asked current opened := by
  obtain ⟨r, hr, hc⟩ := h
  exact ⟨r, hr, hc.advances hst⟩

theorem Reached.more (h : st.Reached asked current opened) (l : List (Request ι)) :
    st.Reached (asked ++ l) current opened := by
  obtain ⟨r, hr, hc⟩ := h
  exact ⟨r, List.mem_append_left l hr, hc⟩

theorem reached_request (st : Store ι) (asked : List (Request ι)) (s : Sequence k) :
    st.Reached (asked ++ [⟨k, s⟩]) s [] := ⟨s, by simp, .start⟩

theorem Asked.advances (h : st.Asked asked s ys) (hst : st.Advances st₁) : st₁.Asked asked s ys := by
  obtain ⟨id, opened, opened', hc, hr⟩ := h
  exact ⟨id, opened, opened', hc.advances hst, hr.advances hst⟩

theorem Asked.more (h : st.Asked asked s ys) (l : List (Request ι)) : st.Asked (asked ++ l) s ys := by
  obtain ⟨id, opened, opened', hc, hr⟩ := h
  exact ⟨id, opened, opened', hc, hr.more l⟩

theorem peek?_of_force {unfold : {k : Kind ι} → Plan k → Run ι (Sequence k)} {id : Nat}
    {v : Sequence k} (h : Run.force unfold k id st = .ok (v, st')) (hst : st.Advances st')
    (hk : st.keeps = true) : st'.peek? k id = some v := by
  obtain ⟨p, ⟨hc, rfl⟩ | ⟨hc, st₁, -, rfl⟩⟩ := force_cases h
  · exact peek?_eq_some.2 ⟨p, hc⟩
  · obtain ⟨m, hc', -⟩ := hst.cell hc
    have hid : id < st₁.cells.size := by
      simpa using (Array.getElem?_eq_some_iff.1 hc').1
    have hk₁ : st₁.keeps = true := by
      rw [← keeps_setMemo id p (.forced v), hst.keeps, hk]
    exact peek?_eq_some.2 ⟨p, getElem?_setMemo_self hk₁ (Array.getElem?_eq_getElem hid) p _⟩

theorem moments_eq_cons (fuel : Nat) (current : Sequence k) (opened : List (Segments (Sequence k)))
    (st : Store ι) : ∃ l, Sequence.moments fuel current opened st = .store st :: l := by
  cases fuel <;> exact ⟨_, rfl⟩

section Onward

theorem Comes.kept {id : Nat} {v : Sequence k} (h : st.Comes s ys (.lazy id) opened)
    (hv : st.peek? k id = some v) : st.Comes s ys v opened :=
  h.onward (Run.map_eq_ok.2 ⟨v, Run.recall_eq_ok.2 ⟨hv, rfl⟩, rfl⟩)

theorem Comes.one (h : st.Comes s ys (.one x t) opened) :
    st.Comes s (ys ++ [x]) (Node.reattach t opened) [] := h.found rfl

theorem Comes.part {parts : Segments (Sequence k)} {part : Sequence k} {rest : List (Sequence k)}
    (h : st.Comes s ys (.composite parts) opened) (hparts : parts.contents = part :: rest)
    (ho : Node.pendingParts opened = []) :
    ∃ opened', Node.pendingParts opened' = rest ∧ st.Comes s ys part opened' := by
  have hall := pendingParts_composite parts opened
  rw [hparts, ho, List.append_nil] at hall
  cases hpop : Node.popPending (parts :: opened.dropWhile Segments.isEmpty) with
  | none =>
    rw [Node.pendingParts_of_popPending_none hpop] at hall
    cases hall
  | some next =>
    obtain ⟨part', opened'⟩ := next
    rw [Node.pendingParts_of_popPending hpop] at hall
    obtain ⟨rfl, hrest⟩ := List.cons.inj hall
    have ht : Sequence.turn (Run.recall k) (.composite parts) opened st =
        .ok (.onward part' opened', st) := by
      simp only [Sequence.turn, hpop]
      rfl
    exact ⟨opened', hrest, h.onward ht⟩

variable {parts : Segments (Sequence k)} {next : Sequence k}

theorem Comes.passed {ys : List (El k)} (h : st.Comes s ys (Node.reattach .empty opened) [])
    (ho : Node.pendingParts opened = [next]) :
    ∃ opened', Node.pendingParts opened' = [] ∧ st.Comes s ys next opened' := by
  obtain ⟨parts, hre, hparts⟩ := Node.exists_reattach .empty ho nofun
  rw [hre] at h
  exact h.part hparts rfl

theorem Comes.slice {elements : Array (El k)} {index : Nat}
    (h : st.Comes s ys (.composite parts) opened)
    (hparts : parts.contents = [.generated index (some elements.size) (.slice elements), next])
    (ho : Node.pendingParts opened = []) (hindex : index < elements.size) :
    ∃ opened', Node.pendingParts opened' = [] ∧
      st.Comes s (ys ++ elements.toList.drop index) next opened' := by
  induction hleft : elements.size - index generalizing index ys parts opened with
  | zero => omega
  | succ left ih =>
    obtain ⟨opened₁, ho₁, h₁⟩ := h.part hparts ho
    have hx : (Source.slice elements).at? index = some elements[index] :=
      Array.getElem?_eq_getElem hindex
    have h₂ := h₁.found (turn_generated hx _ _ st)
    have hdrop : elements.toList.drop index = elements[index] :: elements.toList.drop (index + 1) :=
      List.drop_eq_getElem_cons (show index < elements.toList.length from hindex)
    by_cases hlast : elements.size ≤ index + 1
    · have hfollowing : Node.following index (some elements.size) (.slice elements) = .empty :=
        if_pos hlast
      rw [hfollowing] at h₂
      rw [hdrop, List.drop_eq_nil_of_le (show elements.toList.length ≤ index + 1 from hlast)]
      exact h₂.passed ho₁
    · have hfollowing : Node.following index (some elements.size) (.slice elements) =
          .generated (index + 1) (some elements.size) (.slice elements) := if_neg hlast
      obtain ⟨parts', hre, hparts'⟩ :=
        Node.exists_reattach (.generated (index + 1) (some elements.size) (.slice elements)) ho₁ nofun
      rw [hfollowing, hre] at h₂
      obtain ⟨opened₃, ho₃, h₃⟩ := ih h₂ hparts' rfl (by omega) (by omega)
      refine ⟨opened₃, ho₃, ?_⟩
      rw [hdrop]
      simpa using h₃

theorem Comes.concat {node : Sequence k} {elements : List (El k)} {id : Nat}
    (hnode : Node.Holds node elements) (h : st.Comes s ys (node.concat (.lazy id)) opened)
    (ho : Node.pendingParts opened = []) :
    ∃ opened', Node.pendingParts opened' = [] ∧ st.Comes s (ys ++ elements) (.lazy id) opened' := by
  cases hnode with
  | single x =>
    have h : st.Comes s ys (.composite (.pair (.single x) (.lazy id))) opened := h
    obtain ⟨opened₁, ho₁, h₁⟩ := h.part rfl ho
    exact h₁.one.passed ho₁
  | ofList elements =>
    cases elements with
    | nil => exact ⟨opened, ho, (List.append_nil ys).symm ▸ h⟩
    | cons x rest =>
      have h : st.Comes s ys (.composite (.pair (.ofList (x :: rest)) (.lazy id))) opened := h
      exact h.slice rfl ho (Nat.zero_lt_succ _)

end Onward

section Visits
variable {fuel : Nat} {turn : Turn k}

theorem turn_kept (h : Sequence.turn (Run.forceAt fuel k) current opened st = .ok (turn, st'))
    (hk : st.keeps = true) (hst : st.Advances st') (hst₁ : st'.Advances st₁) :
    ∃ st₁', Sequence.turn (Run.recall k) current opened st₁ = .ok (turn, st₁') :=
  turn_recalled h fun _ _ hv => hst₁.peek? (peek?_of_force hv hst hk)

theorem Reached.onward {current' : Sequence k} {opened' : List (Segments (Sequence k))}
    (hr : st.Reached asked current opened)
    (h : Sequence.turn (Run.forceAt fuel k) current opened st = .ok (.onward current' opened', st'))
    (hk : st.keeps = true) (hst : st.Advances st') : st'.Reached asked current' opened' := by
  obtain ⟨r, hr, hc⟩ := hr
  obtain ⟨st₁', ht⟩ := turn_kept h hk hst (.refl st')
  exact ⟨r, hr, (hc.advances hst).onward ht⟩

/-- An extraction along which every cell went one way only can be replayed later. -/
theorem Comes.visited (fuel : Nat) (hc : st₁.Comes s ys current opened) (hk : st.keeps = true)
    (h : Sequence.visit fuel current opened st = .ok (some (x, t), st'))
    (hst : (stores (Sequence.moments fuel current opened st) ++ [st']).Pairwise Advances)
    (hst₁ : st'.Advances st₁) : st₁.Comes s (ys ++ [x]) t [] := by
  induction fuel generalizing current opened st with
  | zero => cases h
  | succ fuel ih =>
    obtain ⟨turn, st₂, ht, h⟩ := Run.bind_eq_ok.1 h
    simp only [Sequence.moments, Run.during, ht, stores_store, stores_append, List.cons_append,
      List.append_assoc] at hst
    obtain ⟨hfirst, hst⟩ := List.pairwise_cons.1 hst
    obtain ⟨-, hst, -⟩ := List.pairwise_append.1 hst
    cases turn with
    | found answer =>
      obtain ⟨rfl, rfl⟩ := Run.pure_eq_ok.1 h
      obtain ⟨st₁', ht'⟩ := turn_kept ht hk (hfirst _ (by simp)) hst₁
      exact hc.found ht'
    | onward current' opened' =>
      obtain ⟨l, hl⟩ := moments_eq_cons fuel current' opened' st₂
      have hmore : (stores (Sequence.moments fuel current' opened' st₂) ++ [st']).Pairwise Advances := hst
      have h₂ : st.Advances st₂ := hfirst _ (by simp [hl])
      have h' : st₂.Advances st' := by
        rw [hl] at hmore
        exact (List.pairwise_cons.1 hmore).1 st' (by simp)
      obtain ⟨st₁', ht'⟩ := turn_kept ht hk h₂ (h'.trans hst₁)
      exact ih (hc.onward ht') (h₂.keeps.trans hk) h hmore

end Visits

end Store

end MemoSequence
