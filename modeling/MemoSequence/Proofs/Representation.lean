import MemoSequence.Proofs.Composites
set_option autoImplicit false

namespace MemoSequence
open Stream'.WSeq (think)
open Sequence (Formed)

variable {ι : Type} [Basis ι]

namespace Plan

def Uses : {k : Kind ι} → Plan k → (Σ k : Kind ι, El k) → Prop
  | k, .given s, r => r = ⟨.seq k, s⟩
  | k, .cons head tail, r => r = ⟨k, head⟩ ∨ tail.Uses r
  | _, .append a b, r => a.Uses r ∨ b.Uses r
  | _, .defer _ body, r => (body ()).Uses r
  | _, .map input _, r => input.Uses r
  | _, .mapPlan input _ _, r => input.Uses r
  | _, .flatten outer, r => outer.Uses r
  | _, .take input _, r => input.Uses r
  | _, .takeWhile input _, r => input.Uses r
  | _, .skip input _, r => input.Uses r
  | _, .scan input _ _, r => input.Uses r
  | _, .stateScan input _ _, r => input.Uses r

theorem Means.uses {k : Kind ι} {p : Plan k} {w : World ι} {S : Shown (Value k)} (h : p.Means w S)
    {r : Σ k : Kind ι, El k} (hr : p.Uses r) : El.Formed w r.1 r.2 := by
  induction p with
  | given s =>
    obtain rfl := hr
    exact h.1
  | cons head tail ih =>
    obtain ⟨v, T, hv, hT, -⟩ := h
    obtain rfl | hr := hr
    · exact hv.1
    · exact ih hT hr
  | append a b iha ihb =>
    obtain ⟨A, B, hA, hB, -⟩ := h
    exact hr.elim (iha hA) (ihb hB)
  | defer note body ih =>
    obtain ⟨T, hT, -⟩ := h
    exact ih () hT hr
  | map input f ih =>
    obtain ⟨T, g, hT, -⟩ := h
    exact ih hT hr
  | mapPlan input f note ih _ =>
    obtain ⟨T, g, hT, -⟩ := h
    exact ih hT hr
  | flatten outer ih =>
    obtain ⟨T, hT, -⟩ := h
    exact ih hT hr
  | take input count ih =>
    obtain ⟨T, hT, -⟩ := h
    exact ih hT hr
  | takeWhile input p ih =>
    obtain ⟨T, q, hT, -⟩ := h
    exact ih hT hr
  | skip input count ih =>
    obtain ⟨T, hT, -⟩ := h
    exact ih hT hr
  | scan input state step ih =>
    obtain ⟨T, τ, R, t, g, -, hT, -⟩ := h
    exact ih hT hr
  | stateScan input state step ih =>
    obtain ⟨T, τ, R, t, g, -, hT, -⟩ := h
    exact ih hT hr

end Plan

/-- What can be come upon from an element: its parts if it is put together, and of a sequence also the values
that deferred parts keep and those that waiting ones have been given. -/
inductive Store.Inside (st : Store ι) : (Σ k : Kind ι, El k) → (Σ k : Kind ι, El k) → Prop
  | refl (r : Σ k : Kind ι, El k) : Inside st r r
  | some {k : Kind ι} {x : El k} {r : Σ k : Kind ι, El k} (h : Inside st ⟨k, x⟩ r) :
      Inside st ⟨.option k, some x⟩ r
  | first {a b : Kind ι} {x : El (.pair a b)} {r : Σ k : Kind ι, El k} (h : Inside st ⟨a, x.1⟩ r) :
      Inside st ⟨.pair a b, x⟩ r
  | second {a b : Kind ι} {x : El (.pair a b)} {r : Σ k : Kind ι, El k} (h : Inside st ⟨b, x.2⟩ r) :
      Inside st ⟨.pair a b, x⟩ r
  | head {k : Kind ι} {head : El k} {tail : Sequence k} {r : Σ k : Kind ι, El k}
      (h : Inside st ⟨k, head⟩ r) : Inside st ⟨.seq k, .one head tail⟩ r
  | tail {k : Kind ι} {head : El k} {tail : Sequence k} {r : Σ k : Kind ι, El k}
      (h : Inside st ⟨.seq k, tail⟩ r) : Inside st ⟨.seq k, .one head tail⟩ r
  | part {k : Kind ι} {parts : Segments (Sequence k)} {s : Sequence k} {r : Σ k : Kind ι, El k}
      (hs : s ∈ parts.contents) (h : Inside st ⟨.seq k, s⟩ r) : Inside st ⟨.seq k, .composite parts⟩ r
  | item {k : Kind ι} {index i : Nat} {limit : Option Nat} {source : Source (El k)} {x : El k}
      {r : Σ k : Kind ι, El k} (hi : Source.Below limit i) (hx : source.at? i = some x)
      (h : Inside st ⟨k, x⟩ r) : Inside st ⟨.seq k, .generated index limit source⟩ r
  | value {k : Kind ι} {id : Nat} {v : Sequence k} {r : Σ k : Kind ι, El k}
      (hv : st.peek? k id = some v) (h : Inside st ⟨.seq k, v⟩ r) : Inside st ⟨.seq k, .lazy id⟩ r
  | given {k : Kind ι} {id : Nat} {p : Plan k} {m : Memo (Sequence k)} {u r : Σ k : Kind ι, El k}
      (hc : st.cells[id]? = some ⟨k, p, m⟩) (hu : p.Uses u) (h : Inside st u r) :
      Inside st ⟨.seq k, .lazy id⟩ r

/-- What is asked of a node by itself: parts, and none of them empty; an index below the limit, and an element
at every index below it. -/
def Node.Regular {α : Type} : Node α → Prop
  | .composite parts => parts.contents ≠ [] ∧ ∀ s ∈ parts.contents, s.isEmpty = false
  | .generated index limit source =>
    (∀ l, limit = some l → index < l) ∧ ∀ i, (∀ l, limit = some l → i < l) → (source.at? i).isSome
  | _ => True

theorem Node.Formed.regular {α : Type} {cell : Nat → Prop} {item : α → Prop} {s : Node α}
    (h : Formed cell item s) : s.Regular := by
  cases h with
  | empty | one | lazy => trivial
  | composite hc he _ =>
    refine ⟨hc, fun s hs => ?_⟩
    rw [← Bool.not_eq_true, isEmpty_iff]
    exact he s hs
  | generated hb hs =>
    refine ⟨hb, fun i hi => ?_⟩
    obtain ⟨x, hx, -⟩ := hs i hi
    rw [hx]
    rfl

theorem Node.isEmpty_concat {α : Type} (a b : Node α) :
    (a.concat b).isEmpty = (a.isEmpty && b.isEmpty) := by
  by_cases ea : a = .empty
  · rw [ea, empty_concat]
    rfl
  by_cases eb : b = .empty
  · rw [eb, concat_empty]
    exact (Bool.and_true _).symm
  obtain ⟨parts, hp, -⟩ := concat_eq_composite ea eb
  rw [← isEmpty_iff, Bool.not_eq_true] at ea
  rw [hp, ea]
  rfl

section Store
variable {st : Store ι} {w : World ι} {k : Kind ι}

theorem Store.Inside.formed (hst : st.Means w) {r t : Σ k : Kind ι, El k} (h : st.Inside r t)
    (hr : El.Formed w r.1 r.2) : El.Formed w t.1 t.2 := by
  induction h with
  | refl => exact hr
  | some _ ih => exact ih (hr _ rfl)
  | first _ ih => exact ih hr.1
  | second _ ih => exact ih hr.2
  | head _ ih =>
    cases hr with
    | one hh _ => exact ih hh
  | tail _ ih =>
    cases hr with
    | one _ ht => exact ih ht
  | part hs _ ih =>
    cases hr with
    | composite _ _ hp => exact ih (hp _ hs)
  | item hi hx _ ih =>
    cases hr with
    | generated _ hsource =>
      obtain ⟨y, hy, hformed⟩ := hsource _ hi
      obtain rfl := Option.some.inj (hx.symm.trans hy)
      exact ih hformed
  | value hv _ ih => exact ih (hst.kept hv).1
  | given hc hu _ ih =>
    obtain ⟨-, d, -, hp⟩ := hst.plan hc
    exact ih (hp.uses hu)

theorem Sequence.next_yields {s : Sequence k} (hs : Formed w s) (hclosed : Node.Closed s)
    (hne : Node.isEmpty s = false) (st : Store ι) :
    ∃ x t st', Gives (fun fuel => Sequence.next fuel s) st (some (x, t)) st' := by
  obtain ⟨answer, st', hnext, hends, -⟩ := Sequence.next_immediate (hs.immediate hclosed) st
  cases answer with
  | none =>
    rw [hends rfl] at hne
    cases hne
  | some p => exact ⟨p.1, p.2, st', _, hnext⟩

/-- All that can be come upon from here is regular, and has an element where it is plain to see. -/
structure Store.Represented (st : Store ι) (r : Σ k : Kind ι, El k) : Prop where
  regular : ∀ (k : Kind ι) (s : Sequence k), st.Inside r ⟨.seq k, s⟩ → Node.Regular s
  yields : ∀ (k : Kind ι) (s : Sequence k), st.Inside r ⟨.seq k, s⟩ → Node.Closed s →
    Node.isEmpty s = false → ∃ x t st', Gives (fun fuel => Sequence.next fuel s) st (some (x, t)) st'

theorem Store.represented_of_formed (hst : st.Means w) {r : Σ k : Kind ι, El k}
    (hr : El.Formed w r.1 r.2) : st.Represented r where
  regular _ _ h := Node.Formed.regular (h.formed hst hr)
  yields _ _ h hclosed hne := Sequence.next_yields (h.formed hst hr) hclosed hne st

end Store

theorem Program.halts_for_want_of_fuel {program : List (Step ι)} {fuel : ℕ} {why : Halt}
    (h : Program.run fuel program [] Store.empty = .error why) : why = .outOfFuel := by
  have hends := (Program.abreast_itself program fuel).ends
  rw [h] at hends
  cases hends with
  | error h => exact h

/-- No run of a program asks a source beyond its end, or for a cell that is missing or being computed. After
every run all that can be come upon from a register or a cell is regular. -/
theorem representation_kept (program : List (Step ι)) (fuel : ℕ) :
    (∀ (k : Kind ι) (a b : Sequence k),
      Node.isEmpty (Node.concat a b) = (Node.isEmpty a && Node.isEmpty b)) ∧
    (∀ why, Program.run fuel program [] Store.empty = .error why → why = .outOfFuel) ∧
    ∀ env st, Program.run fuel program [] Store.empty = .ok (env, st) →
      (∀ r ∈ env, st.Represented r) ∧
      ∀ (id : Nat) (k : Kind ι) (p : Plan k) (m : Memo (Sequence k)),
        st.cells[id]? = some ⟨k, p, m⟩ → st.Represented ⟨.seq k, .lazy id⟩ := by
  refine ⟨fun _ => Node.isEmpty_concat, fun why => Program.halts_for_want_of_fuel, fun env st h => ?_⟩
  obtain ⟨vs, w, -, hkept⟩ := Program.run_keeps program kept_empty h
  have hformed := formed_of_reads hkept.reads
  refine ⟨fun r hr => Store.represented_of_formed hkept.means (hformed r hr), fun id k p m hc => ?_⟩
  obtain ⟨-, d, hd, -⟩ := hkept.means.plan hc
  exact Store.represented_of_formed hkept.means (r := ⟨.seq k, .lazy id⟩) (.lazy ⟨d, hd⟩)

def layering : List (Step Atom) :=
  [.make (k := .nat) (.fromVec (.plain El.plain_nats [4, 5, 6])) [],
   .make (k := .nat) (.skip 0 1) [0],
   .next .nat 1,
   .make (k := .seq .nat) (.one (.held .nat 0)) [1]]

theorem layering_represented :
    ∃ env st, Program.run 10 layering [] Store.empty = .ok (env, st) ∧ (∀ r ∈ env, st.Represented r) ∧
      ∃ source, st.Inside ⟨.seq (.seq .nat), env.seq (.seq .nat) 4⟩ ⟨.seq .nat, .generated 1 (some 3) source⟩ ∧
        Node.Regular (.generated 1 (some 3) source : Sequence .nat) := by
  have hrun := (rfl : Program.run 10 layering [] Store.empty = .ok (_, _))
  obtain ⟨-, -, hkept⟩ := representation_kept layering 10
  obtain ⟨hregisters, -⟩ := hkept _ _ hrun
  refine ⟨_, _, hrun, hregisters, _, .head (.value rfl (.refl _)), ?_⟩
  exact (hregisters _ (List.getLast_mem (List.cons_ne_nil _ _))).regular .nat _ (.head (.value rfl (.refl _)))

end MemoSequence
