import MemoSequence.Codec.Encoding
import MemoSequence.Proofs.Lists
set_option autoImplicit false

/-!
# Decoders as cuts of their input

Both decoders take one byte after the other and hold the pending bytes of an unfinished unit. A decoder
cuts its input if each step keeps an invariant of the pending bytes, and turns the pending bytes and the
new one into chunks, one for each output, and the bytes that are pending next. Then the outputs for a
whole input cut all of it.
-/
namespace MemoSequence

abbrev DecodeStep : Type :=
  List UInt8 → Option UInt8 → List (Except CodecError UInt32) × List UInt8

def decodeFrom (step : DecodeStep) : List UInt8 → List UInt8 → List (Except CodecError UInt32)
  | pending, [] => (step pending none).1
  | pending, b :: rest =>
    (step pending (some b)).1 ++ decodeFrom step (step pending (some b)).2 rest

theorem scanOutputs_terminated (step : DecodeStep) (pending bs : List UInt8) :
    scanOutputs (fun x => step x.1 x.2) pending (bs.map some ++ [none]) =
      decodeFrom step pending bs := by
  induction bs generalizing pending with
  | nil => exact List.append_nil _
  | cons b rest ih => exact congrArg _ (ih _)

theorem decoder_means (step : DecodeStep) {w : World Atom} {input : Plan .byte}
    {T : Shown UInt8} (hinput : input.Means w T) :
    Plan.Means (k := .decoded)
      (input.terminated.stateScanned [] (.silent fun (pending, input) => step pending input)) w
      (Make.stateScanned (fun x => step x.1 x.2) [] T.terminated.trail) := by
  have hstep : ((Reading.same (List UInt8)).prod (El.reading (.option .byte))).fn
      ((El.reading .decoded).list.prod (.same (List UInt8))) w
      (fun x => step x.1 x.2) (fun x => step x.1 x.2) := by
    rintro w' - ⟨pending, input⟩ ⟨pending', value⟩ ⟨rfl, -, rfl⟩
    have hvalue : El.value w' (.option .byte) input = input := Option.map_id'
    rw [hvalue]
    exact ⟨List.forall₂_same.2 fun e _ => ⟨trivial, rfl⟩, rfl⟩
  exact Make.stateScanned_means (Reading.lasting_same (List UInt8)) (Plan.terminated_means hinput)
    rfl hstep

theorem decoder_lists (step : DecodeStep) {T : Shown UInt8} {bs : List UInt8}
    (h : Lists T.trail bs) :
    Lists (Make.stateScanned (fun x => step x.1 x.2) [] T.terminated.trail).trail
      (decodeFrom step [] bs) := by
  have hlists := h.terminated.stateScanned (fun x => step x.1 x.2) []
  rwa [scanOutputs_terminated] at hlists

theorem decoder_collects (step : DecodeStep) (bs : List UInt8) :
    Plan.Collects (k := .decoded)
      ((Plan.terminated (.ofList bs : Plan .byte)).stateScanned []
        (.silent fun (pending, input) => step pending input))
      (decodeFrom step [] bs) :=
  (decoder_means step (Plan.ofList_means (i := Atom.byte) bs [])).collects
    (decoder_lists step (T := .ofList bs) (Lists.listed bs))

def EndsEarly (e : Except CodecError UInt32) : Prop := ∃ bytes, e = .error (.unexpectedEnd bytes)

/-- The steps of a decoder cut its input: a byte ends a chunk, of all that was pending and itself, or
joins what is pending. `Pending` tells what may be pending, and `Chunk` which bytes an output may take
out of the input. -/
structure Cuts (step : DecodeStep) (Pending : List UInt8 → Prop)
    (Chunk : Except CodecError UInt32 → List UInt8 → Prop) : Prop where
  start : Pending []
  byte : ∀ {pending : List UInt8}, Pending pending → ∀ b : UInt8,
    (∃ e, step pending (some b) = ([e], []) ∧ ¬ EndsEarly e ∧ Chunk e (pending ++ [b])) ∨
      (step pending (some b) = ([], pending ++ [b]) ∧ Pending (pending ++ [b]))
  mark : ∀ pending : List UInt8, step pending none =
    if pending.isEmpty then ([], []) else ([.error (.unexpectedEnd pending)], [])
  final : ∀ {pending : List UInt8}, Pending pending → pending ≠ [] →
    Chunk (.error (.unexpectedEnd pending)) pending

namespace Cuts
variable {step : DecodeStep} {Pending : List UInt8 → Prop}
  {Chunk : Except CodecError UInt32 → List UInt8 → Prop}

/-- The outputs cut the pending bytes and the whole input after them. -/
theorem run (h : Cuts step Pending Chunk) {pending : List UInt8} (hp : Pending pending)
    (bs : List UInt8) :
    ∃ chunks, List.Forall₂ Chunk (decodeFrom step pending bs) chunks ∧
      chunks.flatten = pending ++ bs := by
  induction bs generalizing pending with
  | nil =>
    by_cases hne : pending = []
    · exact ⟨[], by simp [decodeFrom, h.mark, hne], by simp [hne]⟩
    · exact ⟨[pending], by simp [decodeFrom, h.mark, hne, h.final hp hne], by simp⟩
  | cons b rest ih =>
    obtain ⟨e, he, -, hc⟩ | ⟨he, hp'⟩ := h.byte hp b
    · obtain ⟨chunks, hchunks, hflat⟩ := ih h.start
      refine ⟨(pending ++ [b]) :: chunks, ?_, ?_⟩
      · rw [decodeFrom, he]
        exact .cons hc hchunks
      · rw [List.flatten_cons, hflat, List.nil_append, List.append_assoc, List.singleton_append]
    · obtain ⟨chunks, hchunks, hflat⟩ := ih hp'
      refine ⟨chunks, ?_, ?_⟩
      · rw [decodeFrom, he]
        exact hchunks
      · rw [hflat, List.append_assoc, List.singleton_append]

theorem ends_last (h : Cuts step Pending Chunk) {pending : List UInt8} (hp : Pending pending)
    (bs : List UInt8) {i : ℕ} {e : Except CodecError UInt32}
    (hi : (decodeFrom step pending bs)[i]? = some e) (he : EndsEarly e) :
    i + 1 = (decodeFrom step pending bs).length := by
  induction bs generalizing pending i with
  | nil =>
    by_cases hne : pending = []
    · simp [decodeFrom, h.mark, hne] at hi
    · have hlen : (decodeFrom step pending []).length = 1 := by simp [decodeFrom, h.mark, hne]
      have hlt := (List.getElem?_eq_some_iff.1 hi).1
      omega
  | cons b rest ih =>
    obtain ⟨e', hstep, hgoing, -⟩ | ⟨hstep, hp'⟩ := h.byte hp b
    · have hout : decodeFrom step pending (b :: rest) = e' :: decodeFrom step [] rest := by
        rw [decodeFrom, hstep]
        rfl
      rw [hout] at hi ⊢
      cases i with
      | zero =>
        obtain rfl : e' = e := Option.some.inj hi
        exact absurd he hgoing
      | succ i => exact congrArg Nat.succ (ih h.start hi)
    · have hout : decodeFrom step pending (b :: rest) = decodeFrom step (pending ++ [b]) rest := by
        rw [decodeFrom, hstep]
        rfl
      rw [hout] at hi ⊢
      exact ih hp' hi

end Cuts

end MemoSequence
